import Xv6Lab.Paging.Drain
import Xv6Lab.Paging.Recent
import Xv6Lab.Paging.Stops

/-! Page faults and forks when no frame is free. -/

namespace Xv6Lab.Paging

open Lib

variable {E : Env} {g : Ghost} {s t : Kernel} {d v addr : ℕ}

section

variable (hB : Base E g s) (hS : Space g s d Set.univ) (hf : s.freelist = [])

include hB hS hf

end

namespace Booted

variable {init : Page}

end Booted

end Xv6Lab.Paging
