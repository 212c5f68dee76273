import Mathlib.Data.List.Nodup
import HostScript.Proofs.ChangeLabels
import HostScript.Proofs.EventQueues
import HostScript.Proofs.Outcomes
/-!
# Delivering events

A script holds every link once, by one of its variables or of its results, and no number of a link is given again.
So an event is answered by one hook at most: that of whatever holds its link when its turn comes. The hooks that
are called may set other hooks, bind more links and raise more events; each event that was queued is still
delivered in its turn, and what the hooks raise waits for another time.
-/

set_option autoImplicit false

namespace HostScript

/-! ## Who answers an event -/

theorem HookSlots.armed_iff {slots : HookSlots} {hook : Hook} {ip : Int} :
    slots.armed? hook = some ip ↔ slots.get hook = ip ∧ 0 < ip := by
  unfold HookSlots.armed?
  dsimp only
  split
  · rename_i hpos
    exact ⟨fun h => ⟨Option.some_inj.mp h, Option.some_inj.mp h ▸ hpos⟩, fun h => congrArg some h.1⟩
  · rename_i hneg
    exact ⟨nofun, fun h => absurd (h.1 ▸ h.2) hneg⟩

namespace Binding

/-- What holds the link of an event has an armed hook for it, which calls the position. -/
inductive Answers (b : Binding) (e : LinkEvent) (ip : Int) : Prop
  | ofVariable (v : VariableBinding) (hook : Hook) : v ∈ b.vars → v.link = e.link →
    e.event.variableHook? = some hook → v.hooks.get hook = ip → 0 < ip → Answers b e ip
  | ofResult (r : ResultBinding) (hook : Hook) : r ∈ b.results → r.link = e.link →
    e.event.resultHook? = some hook → r.hooks.get hook = ip → 0 < ip → Answers b e ip

/-- No link is held twice, and none has a number that may still be given to another one. -/
structure Separate (b : Binding) : Prop where
  distinct : (b.variableLinks ++ b.resultLinks).Nodup
  issued : ∀ link ∈ b.variableLinks ++ b.resultLinks, link ≤ b.host.lastLink

variable {b b' : Binding} {e : LinkEvent} {ip : Int}

/-- What holds a link is found by it. -/
theorem find_link {α : Type} {f : α → Nat} {xs : List α} (hxs : (xs.map f).Nodup) {x : α} (hx : x ∈ xs) {link : Nat}
    (hlink : f x = link) : xs.find? (fun y => f y = link) = some x := by
  obtain ⟨y, hy⟩ : ∃ y, xs.find? (fun y => f y = link) = some y :=
    Option.isSome_iff_exists.mp (List.find?_isSome.mpr ⟨x, hx, by simpa using hlink⟩)
  have hylink : f y = link := by simpa using List.find?_some hy
  rw [hy, List.inj_on_of_nodup_map hxs (List.mem_of_find?_eq_some hy) hx (hylink.trans hlink.symm)]

theorem Separate.variables (h : b.Separate) : b.variableLinks.Nodup := (List.nodup_append.mp h.distinct).1

theorem Separate.results (h : b.Separate) : b.resultLinks.Nodup := (List.nodup_append.mp h.distinct).2.1

theorem Separate.apart (h : b.Separate) {v : VariableBinding} {r : ResultBinding} (hv : v ∈ b.vars)
    (hr : r ∈ b.results) : v.link ≠ r.link :=
  (List.nodup_append.mp h.distinct).2.2 v.link (List.mem_map_of_mem hv) r.link (List.mem_map_of_mem hr)

/-- An event calls the position that answers it. -/
theorem hookFor_iff (h : b.Separate) : b.hookFor? e = some ip ↔ b.Answers e ip := by
  unfold hookFor?
  constructor
  · intro hcalled
    split at hcalled
    · rename_i v hv
      obtain ⟨hook, hhook, harmed⟩ := Option.bind_eq_some_iff.mp hcalled
      obtain ⟨hget, hpos⟩ := HookSlots.armed_iff.mp harmed
      exact .ofVariable v hook (List.mem_of_find?_eq_some hv) (by simpa using List.find?_some hv) hhook hget hpos
    · obtain ⟨r, hr, hcalled⟩ := Option.bind_eq_some_iff.mp hcalled
      obtain ⟨hook, hhook, harmed⟩ := Option.bind_eq_some_iff.mp hcalled
      obtain ⟨hget, hpos⟩ := HookSlots.armed_iff.mp harmed
      exact .ofResult r hook (List.mem_of_find?_eq_some hr) (by simpa using List.find?_some hr) hhook hget hpos
  · rintro (⟨v, hook, hv, hlink, hhook, hget, hpos⟩ | ⟨r, hook, hr, hlink, hhook, hget, hpos⟩)
    · rw [find_link h.variables hv hlink]
      exact Option.bind_eq_some_iff.mpr ⟨hook, hhook, HookSlots.armed_iff.mpr ⟨hget, hpos⟩⟩
    · have hnone : b.vars.find? (fun v => v.link = e.link) = none :=
        List.find?_eq_none.mpr fun v hv he => h.apart hv hr ((of_decide_eq_true he).trans hlink.symm)
      rw [hnone, find_link h.results hr hlink]
      exact Option.bind_eq_some_iff.mpr
        ⟨r, rfl, Option.bind_eq_some_iff.mpr ⟨hook, hhook, HookSlots.armed_iff.mpr ⟨hget, hpos⟩⟩⟩

theorem Answers.positive (h : b.Answers e ip) : 0 < ip := by
  cases h <;> assumption

theorem Answers.unique (h : b.Separate) {ip' : Int} (hip : b.Answers e ip) (hip' : b.Answers e ip') : ip = ip' :=
  Option.some_inj.mp (((hookFor_iff h).mpr hip).symm.trans ((hookFor_iff h).mpr hip'))

/-! ## Every link is held once -/

theorem Separate.same (h : b.Separate) (hvars : b'.variableLinks = b.variableLinks)
    (hresults : b'.resultLinks = b.resultLinks) (hlast : b.host.lastLink ≤ b'.host.lastLink) : b'.Separate := by
  constructor <;> rw [hvars, hresults]
  · exact h.distinct
  · exact fun link hlink => Nat.le_trans (h.issued link hlink) hlast

/-- A link that is made now is held by nothing else. -/
theorem Separate.grows (h : b.Separate)
    (hlinks : (b'.variableLinks ++ b'.resultLinks).Perm ((b.host.lastLink + 1) :: (b.variableLinks ++ b.resultLinks)))
    (hlast : b'.host.lastLink = b.host.lastLink + 1) : b'.Separate := by
  constructor
  · refine hlinks.nodup_iff.mpr (List.nodup_cons.mpr ⟨fun hmem => ?_, h.distinct⟩)
    exact absurd (h.issued _ hmem) (Nat.not_succ_le_self _)
  · intro link hlink
    rw [hlast]
    rcases List.mem_cons.mp (hlinks.mem_iff.mp hlink) with rfl | hlink
    · exact Nat.le_refl _
    · exact Nat.le_trans (h.issued link hlink) (Nat.le_succ _)

end Binding

theorem Host.exportVariable_lastLink {host : Host} {csv : String} {id : Int64}
    (h : (host.defineVariable csv).2 = .ok id) : (host.exportVariable csv).1.lastLink = host.lastLink + 1 := by
  obtain ⟨vars, queue, hdefine⟩ : VariablesOnly host (host.defineVariable csv).1 := defineVariable_variables csv
  unfold exportVariable
  split
  · rename_i hd
    rw [hd] at h
    cases h
  · rename_i hd
    rw [hd] at hdefine
    obtain rfl := hdefine
    rfl

theorem HostOperation.LinksVariable.lastLink {host : Host} {op : HostOperation} (h : op.LinksVariable host) :
    (op.after host).lastLink = host.lastLink + 1 := by
  cases h with
  | imports => rfl
  | exports csv id hid =>
    rw [HostOperation.after]
    exact Host.exportVariable_lastLink hid

/-- Whatever a script does to its binding, it holds every link once. -/
theorem BindingStep.separate {b b' : Binding} {deed : Option LinkDeed} (h : BindingStep b deed b')
    (hb : b.Separate) : b'.Separate := by
  cases h with
  | rests hsame hstock => exact hb.same hsame.vars hsame.results (Nat.le_of_eq hstock.lastLink.symm)
  | points op link => exact hb.same rfl rfl op.attaches_after.lastLink
  | hooks link f hf =>
    have hsame := b.modifyVariable_links link hf
    exact hb.same hsame.vars hsame.results (Nat.le_refl _)
  | settles hsame hhost => exact hb.same hsame.vars hsame.results (hhost ▸ Nat.le_refl _)
  | relinksResult link id => exact hb.same rfl rfl (HostOperation.attaches_after (.relinkResult link id)).lastLink
  | bindsVariable op v hop hv =>
    refine hb.grows ?_ hop.lastLink
    rw [Binding.variableLinks, List.map_append, List.map_singleton, hv, List.append_assoc, List.singleton_append]
    exact List.perm_middle
  | bindsResult id r hr =>
    refine hb.grows ?_ rfl
    rw [Binding.resultLinks, List.map_append, List.map_singleton, hr, ← List.append_assoc]
    exact List.perm_append_singleton _ _

/-- The application leaves the rest of the binding alone, and no number of a link is given again. -/
def Operation.KeepsLinks : Operation → Prop
  | .changeBinding f => ∀ b, ∃ host more, b.host.lastLink ≤ host.lastLink ∧
    f b = { b with host := host, parameters := b.parameters ++ more }
  | _ => True

theorem Binding.addParameter_keepsLinks (name : String) (id : Int64) :
    (Operation.changeBinding fun b => b.addParameter name id).KeepsLinks := fun _ =>
  ⟨_, _, Nat.le_succ _, rfl⟩

namespace ScriptState

variable {κ μ : Type} {s t : ScriptState κ}

/-- The objects of a script go through links that it has, and it holds each of them once. -/
structure Linked (s : ScriptState κ) : Prop where
  known : s.arena.All s.binding.Knows
  separate : s.binding.Separate

theorem Linked.changes {deed : Option LinkDeed} (h : s.Linked) (hc : s.Changes deed t) : t.Linked :=
  ⟨hc.known h.known, hc.step.separate h.separate⟩

variable [NativeObject κ μ]

/-- However a script is run, it holds each of its links once. -/
theorem linked_lasting (registry : Registry κ) :
    Interpreter.Lasting (μ := μ) registry fun (s : ScriptState κ) _ => s.Linked where
  access _ _ i a h _ := h.changes (access_does registry h.known i a)
  release _ _ o h := h.changes (release_changes registry o)
  world _ _ _ hst _ h := h.changes (.of_world hst)

end ScriptState

/-- Nor does the application give a link to the script that it holds already. -/
theorem Operation.KeepsLinks.keeps {κ μ : Type} {op : Operation} (hop : op.KeepsLinks) :
    op.Keeps fun (s : ScriptState κ) (_ : List (Effect κ μ)) => s.Linked := by
  cases op with
  | changeBinding f =>
    intro s es h
    obtain ⟨host, more, hlast, hf⟩ := hop s.binding
    have hbinding : (s.modifyBinding f).binding =
        { s.binding with host := host, parameters := s.binding.parameters ++ more } := hf
    refine ⟨?_, ?_⟩
    · rw [hbinding]
      exact h.known.mono (Binding.knows_grown host more)
    · rw [hbinding]
      exact h.separate.same rfl rfl hlast
  | _ => trivial

/-! ## Calls of hooks -/

namespace Interpreter

open ScriptState

variable {κ μ : Type} [NativeObject κ μ] {i j j' k : Interpreter κ} {ip : Int} {limit limit' : Nat}

theorem During.unstepped (hk : During i ip k) (hmode : i.script.stepMode = false) : k.script.stepMode = false := by
  induction hk with
  | start => exact hmode
  | step _ _ _ ih => exact (congrArg Prod.fst (step_awake ih)).trans ih

/-- A script that waits for events, where it was before some of them were delivered. -/
structure Waits (i k : Interpreter κ) : Prop where
  ready : k.script.phase = .ready
  unstepped : k.script.stepMode = false
  stack : k.script.stack = i.script.stack
  linked : k.script.Linked

/-- After a hook that ends without an error, the script waits again. -/
theorem Waits.called (h : Waits i k) (hip : 0 < ip) (hcall : callAt limit k ip false = some j)
    (hj : j.script.phase ≠ .error) : Waits i j := by
  have hempty : k.script.phase ≠ .empty := by simp [h.ready]
  have herror : k.script.phase ≠ .error := by simp [h.ready]
  have hip : 0 ≤ ip := Int.le_of_lt hip
  have hstack : j.script.stack = i.script.stack :=
    ((callAt_stack hempty herror hip hcall).resolve_left hj).trans h.stack
  have hlinked : j.script.Linked := by
    have hstart : Lasts k.registry (fun (s : ScriptState κ) (_ : List (Effect κ μ)) => s.Linked) [] (some k) :=
      ⟨rfl, h.linked⟩
    have hlasts := callAt_lasts (linked_lasting k.registry) limit hstart ip false
    rw [hcall] at hlasts
    exact hlasts.2
  rw [callAt_eq hempty herror hip] at hcall
  suffices hplace : j.script.phase = .ready ∧ j.script.stepMode = false from ⟨hplace.1, hplace.2, hstack, hlinked⟩
  rcases runCall_ends rfl .start hcall with ⟨k', hk, -, -, rfl⟩ | ⟨k', hk, hstopped, rfl⟩ | ⟨k', -, -, rfl⟩
  · exact ⟨h.ready, (congrArg Prod.fst (step_awake (hk.unstepped h.unstepped))).trans (hk.unstepped h.unstepped)⟩
  · rcases hk.phase with hrunning | ⟨-, hready, -⟩ | hfailed
    · exact absurd hrunning hstopped
    · exact ⟨hready, hk.unstepped h.unstepped⟩
    · exact absurd hfailed hj
  · exact absurd rfl hj

/-! ## What is delivered -/

end Interpreter

/-- An event that was delivered, with the position that was called for it and the events that were raised there. -/
structure Delivery where
  event : LinkEvent
  called : Option Int
  raised : List LinkEvent

namespace Interpreter

open ScriptState

variable {κ μ : Type} [NativeObject κ μ] {i j j' k : Interpreter κ} {ip : Int} {limit limit' : Nat}
  {ds : List Delivery} {e : LinkEvent} {es : List LinkEvent}

/-- Events have been delivered one after the other: one that is answered by a hook when its turn comes has called it,
and the hook has ended without an error; and one that is not has called nothing. -/
inductive Delivered (i : Interpreter κ) : List Delivery → Interpreter κ → Prop
  | start : Delivered i [] i
  | missed {ds : List Delivery} {k : Interpreter κ} {e : LinkEvent} : Delivered i ds k →
    (∀ ip, ¬k.script.binding.Answers e ip) → Delivered i (ds ++ [⟨e, none, []⟩]) k
  | called {ds : List Delivery} {k j : Interpreter κ} {e : LinkEvent} {ip : Int} {limit : Nat}
    {raised : List LinkEvent} : Delivered i ds k → k.script.binding.Answers e ip →
    callAt limit k ip false = some j → j.script.phase ≠ .error →
    j.script.host.queue = k.script.host.queue ++ raised → Delivered i (ds ++ [⟨e, some ip, raised⟩]) j

theorem Delivered.waits (hi : Waits i i) (h : Delivered i ds k) : Waits i k := by
  induction h with
  | start => exact hi
  | missed _ _ ih => exact ih
  | called _ hanswers hcall hj _ ih => exact ih.called hanswers.positive hcall hj

/-- What was queued before is still there, and behind it what the hooks have raised. -/
theorem Delivered.queue (h : Delivered i ds k) :
    k.script.host.queue = i.script.host.queue ++ ds.flatMap (·.raised) := by
  induction h with
  | start => simp
  | missed _ _ ih => simpa using ih
  | called _ _ _ _ hraised ih => simp [hraised, ih]

/-- What delivery has called. -/
def calls (ds : List Delivery) : Nat := ds.countP (·.called.isSome)

theorem deliverAll_cons_inv {n : Nat} (h : deliverAll limit k (e :: es) = some (j, n)) :
    ∃ k' called n', k.deliver limit e = some (k', called) ∧ deliverAll limit k' es = some (j, n') := by
  simp only [deliverAll, bind, Option.bind_eq_some_iff, pure] at h
  obtain ⟨⟨k', called⟩, he, ⟨j', n'⟩, hes, hj⟩ := h
  obtain ⟨rfl, -⟩ := Prod.mk.inj (Option.some_inj.mp hj)
  exact ⟨k', called, n', he, hes⟩

end Interpreter

open Interpreter ScriptState

variable {κ μ : Type} [NativeObject κ μ]

end HostScript
