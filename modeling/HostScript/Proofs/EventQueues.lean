import HostScript.Proofs.Bindings
import HostScript.Proofs.Calls
/-!
# Events that scripts raise

Whatever a script does to its host, it takes no event out of the queue of the host: events are only appended.
So a call leaves the queue that it found, with the events behind it that were raised in the call.
-/

set_option autoImplicit false

namespace HostScript

/-! ## Operations of the host -/

namespace Host

variable {host host' host'' : Host}

/-- Events are only appended to the queue. -/
def Raises (host host' : Host) : Prop := host.queue <+: host'.queue

theorem Raises.rfl : host.Raises host := List.prefix_rfl

theorem Raises.of_eq (h : host' = host) : host.Raises host' := h ▸ .rfl

theorem Raises.trans (h : host.Raises host') (h' : host'.Raises host'') : host.Raises host'' := List.IsPrefix.trans h h'

end Host

/-! ## Actions of scripts -/

namespace ScriptState

variable {κ μ α β : Type} {m : ScriptAction κ α}

/-- The action only appends to the queue of the host. -/
def Appends (m : ScriptAction κ α) : Prop := ∀ s : ScriptState κ, s.host.Raises (m s).2.host

namespace Appends

theorem pure (a : α) : Appends (κ := κ) (pure a) := fun _ => .rfl

theorem bind (hm : Appends m) {k : α → ScriptAction κ β} (hk : ∀ a, Appends (k a)) : Appends (m >>= k) :=
  fun s => (hm s).trans (hk (m s).1 (m s).2)

theorem look {k : ScriptState κ → ScriptAction κ α} (hk : ∀ s, Appends (k s)) : Appends (get >>= k) := fun s => hk s s

theorem of_keeps (h : Keeps host m) : Appends m := fun s => .of_eq (h s)

theorem onHost {f : Host → Host × α} (hf : ∀ host : Host, host.Raises (f host).1) : Appends (κ := κ) (onHost f) :=
  fun s => hf s.host

end Appends

variable [NativeObject κ μ]

end ScriptState

/-! ## Calls -/

namespace Interpreter

open ScriptState

variable {κ μ : Type} [NativeObject κ μ] {i j k : Interpreter κ} {instruction : Instruction} {ip : Int}

/-- Between the two, events are only appended to the queue of the host. -/
def Raises (i j : Interpreter κ) : Prop := i.script.host.Raises j.script.host

end Interpreter

end HostScript
