import HostScript.Proofs.HostFrames
import HostScript.Proofs.WordRange
import HostScript.Script.StandIn
/-!
# Arithmetic on samples, offsets and sizes

A script reads samples without their offset, and it asks for ranges of samples, with a negative size up to the last
one. The difference of a sample and the offset wraps around where it leaves the 64 bits: then what the script reads
is not the difference. The size up to the last sample wraps around too, for offsets far below zero. Nothing comes of
that, since no range starts below zero, and one that ends with the last sample is there already. Offsets and sizes
that are pending were 64-bit integers and not negative, so that their sums fit 64 bits without a sign.
-/

set_option autoImplicit false

namespace HostScript

open HostScript.Number ScriptState
open ScriptFunction (give)

/-! ## Samples without their offset -/

namespace Result

end Result

/-! ## The size of a range -/

namespace ResultMember

end ResultMember

namespace Host

variable {host host' : Host} {link : Nat} {asked : Option Request}

/-- Some result waits for the samples of a request. -/
def Pending (host : Host) (q : Request) : Prop := ∃ id r, host.results.find? id = some r ∧ q ∈ r.pending

/-- What is pending afterwards was pending before, or it is what is asked for. -/
def AsksOnly (host host' : Host) (asked : Option Request) : Prop :=
  ∀ q, host'.Pending q → host.Pending q ∨ asked = some q

theorem AsksOnly.of_results (h : host'.results = host.results) : AsksOnly host host' asked :=
  fun _ ⟨id, r, hr, hq⟩ => .inl ⟨id, r, h ▸ hr, hq⟩

theorem AsksOnly.insert {id : Int64} {r : Result} (h : host'.results = host.results.insert id r)
    (hr : ∀ q ∈ r.pending, host.Pending q ∨ asked = some q) : AsksOnly host host' asked := by
  rintro q ⟨x, s, hs, hq⟩
  rw [h, Directory.find_insert] at hs
  split at hs
  · exact hr q (Option.some_inj.mp hs ▸ hq)
  · exact .inl ⟨x, s, hs, hq⟩

theorem AsksOnly.forget {id : Int64} (h : host'.results = host.results.modify id (·.forget link)) :
    AsksOnly host host' asked := by
  rintro q ⟨x, s, hs, hq⟩
  rw [h, Directory.find_modify] at hs
  obtain ⟨r, hr, rfl⟩ := Option.map_eq_some_iff.mp hs
  refine .inl ⟨x, r, hr, ?_⟩
  split at hq
  · exact (List.mem_filter.mp hq).1
  · exact hq

end Host

namespace HostOperation

open Host

variable {host : Host} {op : HostOperation} {q : Request}

end HostOperation

namespace ResultMember

variable {κ : Type} (s : ScriptState κ) (link : Nat)

end ResultMember

end HostScript
