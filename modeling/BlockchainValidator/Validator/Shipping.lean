import BlockchainValidator.Validator.Generator
import Mathlib.Tactic.Ring

/-! # Shipping a batch in blocks

The generator cuts each batch into blocks and submits them one after the other,
until the client rejects one.
-/

namespace BlockchainValidator

open Run

namespace TransactionGenerator

/-- The loop over a batch, with the blocks submitted so far.  `client` answers
whether a submission is accepted, by its index. -/
def shipFrom [BuildProfile] (client : Nat → Bool) (maxBlockSize transactionSize : UInt64)
    (submitted : List (List (List UInt8))) (block : List (List UInt8)) (blockSize : UInt64) :
    List (List UInt8) → Except Panic (List (List (List UInt8)) × Bool)
  | [] =>
      if block.isEmpty then .ok (submitted, true)
      else .ok (submitted ++ [block], client submitted.length)
  | transaction :: batch => do
      let block := block ++ [transaction]
      let blockSize ← addU64 blockSize transactionSize
      if maxBlockSize ≤ blockSize then
        if client submitted.length then
          shipFrom client maxBlockSize transactionSize (submitted ++ [block]) [] 0 batch
        else .ok (submitted ++ [block], false)
      else shipFrom client maxBlockSize transactionSize submitted block blockSize batch

/-- The blocks submitted, and whether all of them were accepted. -/
def shipBlocks [BuildProfile] (client : Nat → Bool) (maxBlockSize transactionSize : UInt64)
    (batch : List (List UInt8)) : Except Panic (List (List (List UInt8)) × Bool) :=
  shipFrom client maxBlockSize transactionSize [] [] 0 batch

/-! ## Cutting and sending -/

section

variable {α : Type} {cap size : Nat}

/-- Cuts where the items since the last cut reach the cap. -/
def cut (cap size : Nat) (block : List α) : List α → List (List α)
  | [] => if block.isEmpty then [] else [block]
  | item :: batch =>
      if cap ≤ (block.length + 1) * size then (block ++ [item]) :: cut cap size [] batch
      else cut cap size (block ++ [item]) batch

/-- Sends items until one is rejected. -/
def send (client : Nat → Bool) (sent : List α) : List α → List α × Bool
  | [] => (sent, true)
  | item :: items =>
      if client sent.length then send client (sent ++ [item]) items else (sent ++ [item], false)

/-- Below the cap, the size of one more item fits the counter. -/
def Fits (cap size length : Nat) : Prop :=
  ∀ count < length, count * size < cap → (count + 1) * size < 2 ^ 64

theorem Fits.of_le {length length' : Nat} (room : Fits cap size length) (fewer : length' ≤ length) :
    Fits cap size length' :=
  fun count within => room count (within.trans_le fewer)

theorem fits_of_total {length : Nat} (total : length * size < 2 ^ 64) : Fits cap size length := by
  intro count within _
  have most : (count + 1) * size ≤ length * size := Nat.mul_le_mul_right size within
  omega

end

/-- One more transaction fits the counter, which then tells if the cap is reached. -/
theorem counts_one_more [BuildProfile] {maxBlockSize transactionSize blockSize : UInt64} {count : Nat}
    (filled : blockSize.toNat = count * transactionSize.toNat)
    (below : 0 < count → count * transactionSize.toNat < maxBlockSize.toNat)
    (room : Fits maxBlockSize.toNat transactionSize.toNat (count + 1)) :
    addU64 blockSize transactionSize = .ok (blockSize + transactionSize) ∧
      (blockSize + transactionSize).toNat = (count + 1) * transactionSize.toNat ∧
      (maxBlockSize ≤ blockSize + transactionSize ↔
        maxBlockSize.toNat ≤ (count + 1) * transactionSize.toNat) := by
  have grown : (count + 1) * transactionSize.toNat = blockSize.toNat + transactionSize.toNat := by
    rw [filled]
    ring
  have fits : blockSize.toNat + transactionSize.toNat < 2 ^ 64 := by
    cases count with
    | zero =>
        rw [filled, Nat.zero_mul, Nat.zero_add]
        exact transactionSize.toNat_lt
    | succ count =>
        rw [← grown]
        exact room (count + 1) (Nat.lt_succ_self _) (below (Nat.succ_pos _))
  have sum : (blockSize + transactionSize).toNat = (count + 1) * transactionSize.toNat :=
    (toNat_add_of_lt fits).trans grown.symm
  refine ⟨addU64_of_lt fits, sum, ?_⟩
  rw [UInt64.le_iff_toNat_le, sum]

/-- The loop cuts the batch and sends the blocks. -/
theorem shipFrom_eq [BuildProfile] {client : Nat → Bool}
    {maxBlockSize transactionSize blockSize : UInt64} {submitted : List (List (List UInt8))}
    {block batch : List (List UInt8)}
    (filled : blockSize.toNat = block.length * transactionSize.toNat)
    (below : 0 < block.length → block.length * transactionSize.toNat < maxBlockSize.toNat)
    (room : Fits maxBlockSize.toNat transactionSize.toNat (block.length + batch.length)) :
    shipFrom client maxBlockSize transactionSize submitted block blockSize batch =
      .ok (send client submitted
        (cut maxBlockSize.toNat transactionSize.toNat block batch)) := by
  induction batch generalizing submitted block blockSize with
  | nil =>
      rw [shipFrom, cut]
      split
      · rfl
      · rw [send]
        split
        · rename_i accepted
          rw [accepted, send]
        · rename_i rejected
          rw [Bool.not_eq_true] at rejected
          rw [rejected]
  | cons transaction batch ih =>
      rw [List.length_cons] at room
      obtain ⟨added, sum, reaches⟩ := counts_one_more filled below (room.of_le (by omega))
      rw [shipFrom, cut, added, bind_ok]
      simp only [reaches]
      split
      · rw [send]
        split
        · apply ih
          · rw [List.length_nil, Nat.zero_mul]
            rfl
          · intro nonempty
            cases nonempty
          · apply room.of_le
            rw [List.length_nil]
            omega
        · rfl
      · rename_i short
        have length : (block ++ [transaction]).length = block.length + 1 := List.length_append
        apply ih
        · rw [length]
          exact sum
        · intro _
          rw [length]
          exact Nat.lt_of_not_le short
        · apply room.of_le
          rw [length]
          omega

/-! ## Every transaction once, in order -/

section

variable {α : Type} {cap size : Nat} {block batch : List α} {client : Nat → Bool}

/-- The blocks hold the batch, in order. -/
structure Pieces (batch : List α) (blocks : List (List α)) : Prop where
  whole : blocks.flatten = batch
  nonempty : ∀ block ∈ blocks, block ≠ []

theorem Pieces.nil : Pieces ([] : List α) [] where
  whole := rfl
  nonempty := nofun

theorem Pieces.cons {front back : List α} {blocks : List (List α)} (filled : front ≠ [])
    (pieces : Pieces back blocks) : Pieces (front ++ back) (front :: blocks) where
  whole := by rw [List.flatten_cons, pieces.whole]
  nonempty := List.forall_mem_cons.mpr ⟨filled, pieces.nonempty⟩

theorem Pieces.singleton {front : List α} (filled : front ≠ []) : Pieces front [front] where
  whole := List.flatten_singleton
  nonempty := List.forall_mem_singleton.mpr filled

theorem exists_pieces (batch : List α) : ∃ blocks, Pieces batch blocks := by
  cases batch with
  | nil => exact ⟨[], .nil⟩
  | cons item batch => exact ⟨[item :: batch], .singleton (List.cons_ne_nil _ _)⟩

theorem cut_pieces : Pieces (block ++ batch) (cut cap size block batch) := by
  induction batch generalizing block with
  | nil =>
      rw [cut, List.append_nil]
      cases block with
      | nil => exact .nil
      | cons item block => exact .singleton (List.cons_ne_nil _ _)
  | cons item batch ih =>
      have filled : block ++ [item] ≠ [] :=
        List.append_ne_nil_of_right_ne_nil _ (List.cons_ne_nil _ _)
      rw [cut, List.append_cons]
      split
      · have rest := @ih []
        rw [List.nil_append] at rest
        exact .cons filled rest
      · exact ih

theorem cut_reaches : ∀ piece ∈ (cut cap size block batch).dropLast, cap ≤ piece.length * size := by
  induction batch generalizing block with
  | nil =>
      intro piece member
      rw [cut] at member
      cases block with
      | nil => cases member
      | cons item block => cases member
  | cons item batch ih =>
      rw [cut]
      split
      · rename_i reached
        intro piece member
        have later := @ih [] piece
        cases pieces : cut cap size [] batch with
        | nil =>
            rw [pieces] at member
            cases member
        | cons next pieces' =>
            rw [pieces] at member later
            cases member with
            | head =>
                rw [List.length_append]
                exact reached
            | tail _ member => exact later member
      · exact ih

/-- No shorter block reaches the cap. -/
theorem cut_shortest
    (short : ∀ count, 0 < count → count ≤ block.length → count * size < cap) :
    ∀ piece ∈ cut cap size block batch, ∀ count, 0 < count → count < piece.length →
      count * size < cap := by
  induction batch generalizing block with
  | nil =>
      intro piece member count positive within
      rw [cut] at member
      cases block with
      | nil => cases member
      | cons item block =>
          obtain rfl := List.mem_singleton.mp member
          exact short count positive (Nat.le_of_lt within)
  | cons item batch ih =>
      have length : (block ++ [item]).length = block.length + 1 := List.length_append
      rw [cut]
      split
      · intro piece member count positive within
        cases member with
        | head =>
            rw [length] at within
            exact short count positive (Nat.le_of_lt_succ within)
        | tail _ member =>
            refine ih ?_ piece member count positive within
            intro count positive none
            rw [List.length_nil] at none
            omega
      · rename_i below
        apply ih
        intro count positive within
        rw [length] at within
        rcases Nat.lt_or_eq_of_le within with less | same
        · exact short count positive (Nat.le_of_lt_succ less)
        · rw [same]
          exact Nat.lt_of_not_le below

/-- The blocks of a batch: what each one holds, and where it ends. -/
structure Chunked (cap size : Nat) (batch : List α) (blocks : List (List α)) : Prop
    extends Pieces batch blocks where
  reaches : ∀ block ∈ blocks.dropLast, cap ≤ block.length * size
  shortest : ∀ block ∈ blocks, ∀ count, 0 < count → count < block.length → count * size < cap

theorem cut_chunked : Chunked cap size batch (cut cap size [] batch) where
  toPieces := @cut_pieces _ _ _ [] batch
  reaches := cut_reaches
  shortest := by
    apply cut_shortest
    intro count positive none
    rw [List.length_nil] at none
    omega

/-- The submissions that the client accepts. -/
def accepted (client : Nat → Bool) : List α → List α
  | [] => []
  | item :: items =>
      if client 0 then item :: accepted (fun index => client (index + 1)) items
      else accepted (fun index => client (index + 1)) items

/-- The blocks are submitted in order until one is rejected. -/
structure Sent (client : Nat → Bool) (items submitted : List α) (shipped : Bool) : Prop where
  inOrder : submitted <+: items
  untilRejected : ∀ index, index + 1 < submitted.length → client index = true
  shipped_iff : shipped = true ↔ ∀ index < submitted.length, client index = true
  all : shipped = true → submitted = items
  acceptedInOrder : accepted client submitted <+: items

theorem Sent.cons {item : α} {items submitted : List α} {shipped : Bool}
    (first : client 0 = true)
    (rest : Sent (fun index => client (index + 1)) items submitted shipped) :
    Sent client (item :: items) (item :: submitted) shipped where
  inOrder := (List.prefix_cons_inj item).mpr rest.inOrder
  untilRejected := by
    intro index within
    cases index with
    | zero => exact first
    | succ index => exact rest.untilRejected index (Nat.lt_of_succ_lt_succ within)
  shipped_iff := by
    rw [rest.shipped_iff]
    apply Iff.intro
    · intro answers index within
      cases index with
      | zero => exact first
      | succ index => exact answers index (Nat.lt_of_succ_lt_succ within)
    · intro answers index within
      exact answers (index + 1) (Nat.succ_lt_succ within)
  all := fun shipped => congrArg (item :: ·) (rest.all shipped)
  acceptedInOrder := by
    rw [accepted, if_pos first]
    exact (List.prefix_cons_inj item).mpr rest.acceptedInOrder

theorem Sent.nil : Sent client ([] : List α) [] true where
  inOrder := List.prefix_rfl
  untilRejected := by
    intro index within
    cases within
  shipped_iff := by simp
  all := fun _ => rfl
  acceptedInOrder := List.nil_prefix

theorem Sent.rejected {item : α} {items : List α} (first : client 0 = false) :
    Sent client (item :: items) [item] false where
  inOrder := (List.prefix_cons_inj item).mpr List.nil_prefix
  untilRejected := by
    intro index within
    rw [List.length_singleton] at within
    omega
  shipped_iff := by simp [first]
  all := by
    intro shipped
    cases shipped
  acceptedInOrder := by
    rw [accepted, first]
    exact List.nil_prefix

theorem send_sent {sent items : List α} :
    ∃ submitted shipped, send client sent items = (sent ++ submitted, shipped) ∧
      Sent (fun index => client (sent.length + index)) items submitted shipped := by
  induction items generalizing sent with
  | nil => exact ⟨[], true, by rw [send, List.append_nil], Sent.nil⟩
  | cons item items ih =>
      rw [send]
      split
      · rename_i answer
        obtain ⟨submitted, shipped, same, rest⟩ := @ih (sent ++ [item])
        have shift : (fun index => client ((sent ++ [item]).length + index)) =
            fun index => client (sent.length + (index + 1)) := by
          funext index
          rw [List.length_append, List.length_singleton, Nat.add_assoc, Nat.add_comm 1]
        rw [shift] at rest
        exact ⟨item :: submitted, shipped, by rw [same]; simp, rest.cons answer⟩
      · rename_i answer
        exact ⟨[item], false, rfl, Sent.rejected (eq_false_of_ne_true answer)⟩

theorem send_empty_sent {items submitted : List α} {shipped : Bool}
    (all : send client [] items = (submitted, shipped)) : Sent client items submitted shipped := by
  obtain ⟨_, _, same, sent⟩ := @send_sent _ client [] items
  cases all.symm.trans same
  simpa only [List.nil_append, List.length_nil, Nat.zero_add] using sent

theorem Pieces.accepted_prefix {submitted blocks : List (List α)} {shipped : Bool}
    (pieces : Pieces batch blocks) (sent : Sent client blocks submitted shipped) :
    (accepted client submitted).flatten <+: batch := by
  obtain ⟨rest, split⟩ := sent.acceptedInOrder
  have whole := pieces.whole
  rw [← split, List.flatten_append] at whole
  exact ⟨_, whole⟩

end

section

variable [BuildProfile] {maxBlockSize transactionSize : UInt64} {batch : List (List UInt8)}

/-- Whatever the sizes are, what the loop sends are pieces of the batch. -/
theorem shipFrom_pieces {client : Nat → Bool} {blockSize : UInt64} {block : List (List UInt8)}
    {earlier submitted : List (List (List UInt8))} {shipped : Bool}
    (returned : shipFrom client maxBlockSize transactionSize earlier block blockSize batch =
      .ok (submitted, shipped)) :
    ∃ blocks, Pieces (block ++ batch) blocks ∧ send client earlier blocks = (submitted, shipped) := by
  induction batch generalizing earlier block blockSize with
  | nil =>
      rw [shipFrom] at returned
      rw [List.append_nil]
      split at returned
      · rename_i empty
        rw [List.isEmpty_iff.mp empty]
        exact ⟨[], .nil, Except.ok.inj returned⟩
      · rename_i filled
        rw [List.isEmpty_iff] at filled
        refine ⟨[block], .singleton filled, ?_⟩
        rw [← Except.ok.inj returned, send]
        split
        · rename_i answer
          rw [answer, send]
        · rename_i answer
          rw [eq_false_of_ne_true answer]
  | cons transaction batch ih =>
      rw [shipFrom] at returned
      obtain ⟨blockSize, -, returned⟩ := bind_eq_ok.mp returned
      have filled : block ++ [transaction] ≠ [] :=
        List.append_ne_nil_of_right_ne_nil _ (List.cons_ne_nil _ _)
      rw [List.append_cons]
      split at returned
      · split at returned
        · rename_i answer
          obtain ⟨blocks, pieces, same⟩ := ih returned
          refine ⟨_, .cons filled pieces, ?_⟩
          rw [send, if_pos answer]
          exact same
        · rename_i answer
          obtain ⟨blocks, pieces⟩ := exists_pieces batch
          refine ⟨_, .cons filled pieces, ?_⟩
          rw [send, if_neg answer]
          exact Except.ok.inj returned
      · exact ih returned

theorem shipBlocks_sent (client : Nat → Bool)
    (room : Fits maxBlockSize.toNat transactionSize.toNat batch.length) :
    ∃ submitted shipped,
      shipBlocks client maxBlockSize transactionSize batch = .ok (submitted, shipped) ∧
        Sent client (cut maxBlockSize.toNat transactionSize.toNat [] batch) submitted shipped := by
  have loop : shipBlocks client maxBlockSize transactionSize batch =
      .ok (send client [] (cut maxBlockSize.toNat transactionSize.toNat [] batch)) := by
    apply shipFrom_eq
    · rw [List.length_nil, Nat.zero_mul]
      rfl
    · intro nonempty
      cases nonempty
    · rw [List.length_nil, Nat.zero_add]
      exact room
  exact ⟨_, _, loop, send_empty_sent rfl⟩

/-- A batch is cut into blocks in order, and the blocks are submitted in order
until the client rejects one.  The sizes decide only where a block ends. -/
theorem shipped_in_order :
    (∀ client submitted shipped,
      shipBlocks client maxBlockSize transactionSize batch = .ok (submitted, shipped) →
        ∃ blocks, Pieces batch blocks ∧ Sent client blocks submitted shipped ∧
          (accepted client submitted).flatten <+: batch) ∧
    (Fits maxBlockSize.toNat transactionSize.toNat batch.length →
      ∃ blocks, Chunked maxBlockSize.toNat transactionSize.toNat batch blocks ∧
        ∀ client, ∃ submitted shipped,
          shipBlocks client maxBlockSize transactionSize batch = .ok (submitted, shipped) ∧
            Sent client blocks submitted shipped ∧
              (accepted client submitted).flatten <+: batch) := by
  apply And.intro
  · intro client submitted shipped returned
    obtain ⟨blocks, pieces, same⟩ := shipFrom_pieces returned
    rw [List.nil_append] at pieces
    have sent := send_empty_sent same
    exact ⟨blocks, pieces, sent, pieces.accepted_prefix sent⟩
  · intro room
    refine ⟨_, cut_chunked, ?_⟩
    intro client
    obtain ⟨submitted, shipped, returned, sent⟩ := shipBlocks_sent client room
    exact ⟨submitted, shipped, returned, sent, cut_chunked.accepted_prefix sent⟩

end

section

attribute [local instance] checkedBuild

/-- Three payloads of one byte under a cap of two bytes. -/
theorem three_payloads_shipped :
    ∃ blocks, Chunked 2 1 [[1], [2], [3]] blocks ∧
      ∀ client, ∃ submitted shipped,
        shipBlocks client 2 1 [[1], [2], [3]] = .ok (submitted, shipped) ∧
          Sent client blocks submitted shipped ∧
            (accepted client submitted).flatten <+: [[1], [2], [3]] := by
  have room : Fits (2 : UInt64).toNat (1 : UInt64).toNat [[(1 : UInt8)], [2], [3]].length :=
    fits_of_total (by decide)
  exact shipped_in_order.2 room

end

/-! ## The block-size cap -/

section

variable {cap size : Nat} {batch block : List (List UInt8)} {blocks : List (List (List UInt8))}

/-- The bytes of a block's payloads. -/
def bytes (block : List (List UInt8)) : Nat := (block.map List.length).sum

theorem bytes_of_sized (sized : ∀ transaction ∈ block, transaction.length = size) :
    bytes block = block.length * size := by
  rw [bytes, List.map_congr_left sized, List.map_const', List.sum_replicate_nat]

theorem Chunked.sub_batch (chunked : Chunked cap size batch blocks) (member : block ∈ blocks) :
    block.Sublist batch := by
  rw [← chunked.whole]
  exact List.sublist_flatten_of_mem member

theorem Chunked.bytes_eq (chunked : Chunked cap size batch blocks)
    (sized : ∀ transaction ∈ batch, transaction.length = size) (member : block ∈ blocks) :
    bytes block = block.length * size :=
  bytes_of_sized fun transaction inside =>
    sized transaction ((chunked.sub_batch member).subset inside)

/-- A block exceeds a cap that its size does not divide, or which all of it exceeds. -/
theorem Chunked.within_cap (chunked : Chunked cap size batch blocks) (smaller : size ≤ cap)
    (fits : size ∣ cap ∨ batch.length * size ≤ cap) (member : block ∈ blocks) :
    block.length * size ≤ cap := by
  rcases fits with divides | whole
  · obtain ⟨most, rfl⟩ := divides
    have shortest := chunked.shortest block member
    cases length : block.length with
    | zero => omega
    | succ count =>
        cases count with
        | zero =>
            rw [Nat.zero_add, Nat.one_mul]
            exact smaller
        | succ count =>
            have less := shortest (count + 1) (Nat.succ_pos count) (by omega)
            rw [Nat.mul_comm] at less
            have below : count + 1 < most := Nat.lt_of_mul_lt_mul_left less
            rw [Nat.mul_comm size]
            exact Nat.mul_le_mul_right size below
  · have shorter : block.length * size ≤ batch.length * size :=
      Nat.mul_le_mul_right size (chunked.sub_batch member).length_le
    exact shorter.trans whole

theorem Chunked.first_above_cap {first : List (List UInt8)} {rest : List (List (List UInt8))}
    (chunked : Chunked cap size batch (first :: rest)) (indivisible : ¬size ∣ cap)
    (exceeds : cap < batch.length * size) : cap < first.length * size := by
  cases rest with
  | nil =>
      have whole := chunked.whole
      rw [List.flatten_singleton] at whole
      rw [whole]
      exact exceeds
  | cons next rest =>
      apply Nat.lt_of_le_of_ne
      · exact chunked.reaches first (List.mem_cons_self ..)
      · intro same
        exact indivisible ⟨first.length, by rw [same, Nat.mul_comm]⟩

/-- The first block is always submitted. -/
theorem Sent.nonempty {client : Nat → Bool} {α : Type} {item : α} {items submitted : List α}
    {shipped : Bool} (sent : Sent client (item :: items) submitted shipped) : item ∈ submitted := by
  cases submitted with
  | nil =>
      have all := sent.all (sent.shipped_iff.mpr (by simp))
      cases all
  | cons first submitted =>
      obtain ⟨_, same⟩ := sent.inOrder
      cases same
      exact List.mem_cons_self ..

end

section

variable [BuildProfile] {client : Nat → Bool} {maxBlockSize transactionSize : UInt64}
  {batch : List (List UInt8)}

/-- The cap bounds every submitted block exactly when the payload size divides it
or the whole batch is within it. -/
theorem blocks_within_cap_iff
    (sized : ∀ transaction ∈ batch, transaction.length = transactionSize.toNat)
    (smaller : transactionSize ≤ maxBlockSize)
    (room : Fits maxBlockSize.toNat transactionSize.toNat batch.length) :
    (∃ submitted shipped,
      shipBlocks client maxBlockSize transactionSize batch = .ok (submitted, shipped) ∧
        ∀ block ∈ submitted, bytes block ≤ maxBlockSize.toNat) ↔
      transactionSize.toNat ∣ maxBlockSize.toNat ∨
        batch.length * transactionSize.toNat ≤ maxBlockSize.toNat := by
  obtain ⟨submitted, shipped, returned, sent⟩ := shipBlocks_sent client room
  have chunked : Chunked maxBlockSize.toNat transactionSize.toNat batch
      (cut maxBlockSize.toNat transactionSize.toNat [] batch) := cut_chunked
  apply Iff.intro
  · intro within
    obtain ⟨_, _, same, within⟩ := within
    rw [returned] at same
    cases same
    by_contra exceeds
    rw [not_or, Nat.not_le] at exceeds
    cases blocks : cut maxBlockSize.toNat transactionSize.toNat [] batch with
    | nil =>
        have empty := chunked.whole
        rw [blocks, List.flatten_nil] at empty
        rw [← empty, List.length_nil, Nat.zero_mul] at exceeds
        exact absurd exceeds.2 (Nat.not_lt_zero _)
    | cons first rest =>
        rw [blocks] at chunked sent
        have above := chunked.first_above_cap exceeds.1 exceeds.2
        have below := within first sent.nonempty
        rw [chunked.bytes_eq sized (List.mem_cons_self ..)] at below
        omega
  · intro fits
    refine ⟨submitted, shipped, returned, ?_⟩
    intro block member
    have inside := sent.inOrder.subset member
    rw [chunked.bytes_eq sized inside]
    exact chunked.within_cap (UInt64.le_iff_toNat_le.mp smaller) fits inside

end

section

attribute [local instance] checkedBuild

private def fullPayload : List UInt8 := List.replicate 128 0

private theorem payload_sized : ∀ transaction ∈ [fullPayload, fullPayload, fullPayload],
    transaction.length = (128 : UInt64).toNat := by
  intro transaction member
  obtain rfl : transaction = fullPayload := List.eq_of_mem_replicate (n := 3) member
  exact List.length_replicate

private theorem payloads_bytes : bytes [fullPayload, fullPayload, fullPayload] = 384 :=
  bytes_of_sized payload_sized

/-- A cap that the payload size divides. -/
theorem payloads_within_cap :
    ∃ submitted shipped,
      shipBlocks (fun _ => true) 256 128 [fullPayload, fullPayload, fullPayload] = .ok (submitted, shipped) ∧
        ∀ block ∈ submitted, bytes block ≤ 256 := by
  have total : 3 * 128 < 2 ^ 64 := by decide
  have divides : 128 ∣ 256 := by decide
  exact (blocks_within_cap_iff payload_sized (by decide) (fits_of_total total)).mpr (Or.inl divides)

/-- The block is flushed after the payload that exceeds the cap has joined it. -/
theorem block_above_cap :
    (∀ transaction ∈ [fullPayload, fullPayload, fullPayload],
      transaction.length = (128 : UInt64).toNat) ∧ (128 : UInt64) ≤ 300 ∧
        shipBlocks (fun _ => true) 300 128 [fullPayload, fullPayload, fullPayload] =
          .ok ([[fullPayload, fullPayload, fullPayload]], true) ∧
        (300 : UInt64).toNat < bytes [fullPayload, fullPayload, fullPayload] := by
  refine ⟨payload_sized, by decide, rfl, ?_⟩
  rw [payloads_bytes]
  decide

end

end TransactionGenerator

end BlockchainValidator
