import KKChain.Sync.HeaderRequest

/-! # Requests for blocks

A peer asks for the canonical blocks from a number on. The end of the range is a sum of words that may wrap, and the
amount is not cut down to what is sent at once.
-/

namespace KKChain

namespace BlockRequest

def MaxBlockFetch : ℕ := 128

structure GetBlocksMsg where
  startNum : UInt64
  amount : UInt64

variable {B : Backend} (bc : BlockChain B)

/-- The loop from number `i` on. -/
def gather (stop : ℕ) : ℕ → ℕ → Except (Fault HeaderRequest.HandlerError) (List Block)
  | 0, _ => .error .diverges
  | fuel + 1, i =>
    if i < stop then
      match bc.getBlockByNumber i with
      | none => .ok []
      | some block => (gather stop fuel ((i + 1) % 2 ^ 64)).map (block :: ·)
    else .ok []

/-- `handleGetBlocks`: the blocks of the reply. -/
def handleGetBlocks (fuel : ℕ) : Option GetBlocksMsg → Except (Fault HeaderRequest.HandlerError) (List Block)
  | none => .error (.error .emptyMsgContent)
  | some msg => gather bc ((msg.startNum.toNat + msg.amount.toNat) % 2 ^ 64) fuel msg.startNum.toNat

/-- Every number up to that of the head has a canonical block, and none above it. -/
def Contiguous : Prop := ∀ n, (bc.getBlockByNumber n).isSome ↔ n ≤ bc.currentBlock.numberU64

/-- The reply has the first `count` blocks from number `start` on. -/
def Lists (start count : ℕ) (reply : List Block) : Prop :=
  reply.map some = (List.range' start count).map bc.getBlockByNumber

/-- The blocks that were asked for, up to the end of the chain and to what is sent at once. -/
def Exact (msg : GetBlocksMsg) (reply : List Block) : Prop :=
  Lists bc msg.startNum.toNat
    (min (min msg.amount.toNat MaxBlockFetch) (bc.currentBlock.numberU64 + 1 - msg.startNum.toNat)) reply

/-- The range does not wrap where there are blocks, and not too many are asked for or left. -/
def Modest (msg : GetBlocksMsg) : Prop :=
  (msg.startNum.toNat + msg.amount.toNat < 2 ^ 64 ∨ bc.currentBlock.numberU64 < msg.startNum.toNat) ∧
    (msg.amount.toNat ≤ MaxBlockFetch ∨ bc.currentBlock.numberU64 < msg.startNum.toNat + MaxBlockFetch)

variable {bc}

theorem Lists.length {start count : ℕ} {reply : List Block} (lists : Lists bc start count reply) :
    reply.length = count := by
  simpa using congrArg List.length lists

/-- The loop gathers what there is before its end. -/
theorem gather_spec (chain : Contiguous bc) {stop fuel i : ℕ} (word : stop < 2 ^ 64) (enough : stop - i < fuel) :
    ∃ reply, gather bc stop fuel i = .ok reply ∧ Lists bc i (min stop (bc.currentBlock.numberU64 + 1) - i) reply := by
  induction fuel generalizing i with
  | zero => omega
  | succ fuel ih =>
    rw [gather]
    split_ifs with before
    · cases read : bc.getBlockByNumber i with
      | none =>
        have above : ¬ i ≤ bc.currentBlock.numberU64 := fun le => by simpa [read] using (chain i).mpr le
        exact ⟨[], rfl, by simp [Lists, show min stop (bc.currentBlock.numberU64 + 1) - i = 0 by omega]⟩
      | some block =>
        have within := (chain i).mp (by rw [read]; rfl)
        rw [Nat.mod_eq_of_lt (by omega)]
        obtain ⟨reply, ran, lists⟩ := ih (show stop - (i + 1) < fuel by omega)
        refine ⟨block :: reply, by rw [ran]; rfl, ?_⟩
        have split : min stop (bc.currentBlock.numberU64 + 1) - i =
            min stop (bc.currentBlock.numberU64 + 1) - (i + 1) + 1 := by omega
        rw [Lists, split, List.range'_succ, List.map_cons, List.map_cons, read]
        exact congrArg _ lists
    · exact ⟨[], rfl, by simp [Lists, show min stop (bc.currentBlock.numberU64 + 1) - i = 0 by omega]⟩

/-- The handler returns. Its reply is the one that was asked for exactly if the request is modest. -/
theorem block_request_iff (chain : Contiguous bc) (msg : GetBlocksMsg) :
    ∃ fuel reply, handleGetBlocks bc fuel (some msg) = .ok reply ∧ (Exact bc msg reply ↔ Modest bc msg) := by
  have words := And.intro msg.startNum.toNat_lt msg.amount.toNat_lt
  have word := Nat.mod_lt (msg.startNum.toNat + msg.amount.toNat) (show 0 < 2 ^ 64 by decide)
  obtain ⟨reply, ran, lists⟩ := gather_spec chain word (Nat.lt_succ_self (_ - msg.startNum.toNat))
  refine ⟨_, reply, (handleGetBlocks.eq_2 ..).trans ran, ?_⟩
  have counts : Exact bc msg reply ↔
    min ((msg.startNum.toNat + msg.amount.toNat) % 2 ^ 64) (bc.currentBlock.numberU64 + 1) -
      msg.startNum.toNat = min (min msg.amount.toNat MaxBlockFetch)
          (bc.currentBlock.numberU64 + 1 - msg.startNum.toNat) :=
    ⟨fun exact => lists.length.symm.trans exact.length, fun same => by rw [Exact, ← same]; exact lists⟩
  rw [counts, Modest, MaxBlockFetch]
  omega

open Backend.tally in
theorem contiguous_upper : Contiguous upper := by
  intro n
  by_cases low : n < 3
  · revert n
    decide +kernel
  · have small : ∀ e ∈ upperChain, e.2.numberU64 < 3 := by decide +kernel
    have absent : upper.db.canonical n = none := by
      rw [upper, Database.ofEntries, Option.map_eq_none_iff, List.find?_eq_none]
      intro e mem
      have := small e mem
      simp only [decide_eq_true_eq]
      omega
    refine iff_of_false (by simp [BlockChain.getBlockByNumber, absent]) fun le => low ?_
    exact Nat.lt_succ_of_le (le.trans (show upper.currentBlock.numberU64 ≤ 2 by decide))

open Backend.tally in
/-- The two blocks below the head and the head. -/
theorem block_request_upper : Contiguous upper ∧
    ∃ fuel reply, handleGetBlocks upper fuel (some ⟨0, 3⟩) = .ok reply ∧ Exact upper ⟨0, 3⟩ reply := by
  obtain ⟨fuel, reply, ran, exact_iff⟩ := block_request_iff contiguous_upper ⟨0, 3⟩
  exact ⟨contiguous_upper, fuel, reply, ran, exact_iff.mpr ⟨.inl (by decide), .inl (by decide)⟩⟩

open Backend.tally in
/-- All blocks from the first one on are asked for, and none is sent. -/
theorem block_request_empty : Contiguous upper ∧ (upper.getBlockByNumber 1).isSome ∧
    handleGetBlocks upper 1 (some ⟨1, 0xFFFFFFFFFFFFFFFF⟩) = .ok [] := by
  exact ⟨contiguous_upper, by decide +kernel, by decide +kernel⟩

end BlockRequest

end KKChain
