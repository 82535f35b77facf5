import BlockchainValidator.Checkpoint.Backing
import BlockchainValidator.Checkpoint.Certificates
import BlockchainValidator.Checkpoint.Chronicle
import BlockchainValidator.Checkpoint.Independence
import BlockchainValidator.Checkpoint.VoteOrder
import BlockchainValidator.Checkpoint.Watermark
import BlockchainValidator.Execution.Commitment
import BlockchainValidator.Execution.Commutation
import BlockchainValidator.Execution.Creation
import BlockchainValidator.Execution.Step
import BlockchainValidator.Library.Triangular
import BlockchainValidator.Validator.Agreement
import BlockchainValidator.Validator.Attestation
import BlockchainValidator.Validator.CertificationStatus
import BlockchainValidator.Validator.GeneratedLoad
import BlockchainValidator.Validator.Generator
import BlockchainValidator.Validator.Network
import BlockchainValidator.Validator.Submission
import BlockchainValidator.Validator.TwoPass
import BlockchainValidator.Checkpoint.Timings
import BlockchainValidator.Validator.MeanStamp
import BlockchainValidator.Validator.Latency
import BlockchainValidator.Validator.EmittedIds
import BlockchainValidator.Checkpoint.Representation
import BlockchainValidator.Execution.VersionBound
import BlockchainValidator.Validator.Shipping
import BlockchainValidator.Validator.Testbed
import BlockchainValidator.Validator.Samples
import BlockchainValidator.Validator.WalReplay
import BlockchainValidator.Validator.Proof
import BlockchainValidator.Execution.Lamport
import BlockchainValidator.Validator.Content
import BlockchainValidator.Validator.LoadLoop
import BlockchainValidator.Validator.Divergence
