import Sayiir.Runtime.Lifecycle

/-!
# The Cloudflare binding

`sayiir-cloudflare/src/lifecycle.rs`: an instance that is resumed on a Worker. Its
helpers repeat those of the runtime line by line; a failure reaches the caller as a
JavaScript error.
-/

namespace Sayiir.Cloudflare

open Exec

/-- `resolve_parked`. A fork whose time has come is saved again, so that a sweep does
not take it for a stale one. -/
def resolveParked : ResumeParkedPosition → Exec (Option WorkflowStatus)
  | .fork wakeAt forkId => do
      let status ← checkParkedPosition forkId wakeAt
      match status with
      | some status => pure (some status)
      | none => do
          saveSnapshot
          pure none
  | parked => parked.resolve

end Sayiir.Cloudflare
