import Nabla.Replica
import Nabla.Serde

/-! A subscriber's copy is the view: what a client was sent and told gives the rows that the view
had right after the source transaction it has reached. -/
namespace Nabla
open Bags

variable {pf : Platform} {settings : Settings}

end Nabla
