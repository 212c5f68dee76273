import HostScript.Proofs.HostLinks
import HostScript.Proofs.Notifications
/-!
# Who made what a link owns

A link that owns a variable takes it along when it is removed or attached elsewhere. A link only knows the number
of what it owns, and not whether the variable of that number is still the one that was made through it. To tell,
the making of variables is traced beside the host. The two agree for as long as no variable is made under a number
that another link owns; and once that happens, the owner can take a variable that it never made.
-/

set_option autoImplicit false

namespace HostScript

namespace HostOperation

open Host

variable {host : Host} {op : HostOperation} {link : Nat} {x : Int64}

/-! ## What operations do to variables -/

/-- The variable of a number is taken away, or another one takes its place. -/
def Removes (host : Host) (op : HostOperation) (x : Int64) : Prop :=
  host.vars.contains x = true ∧ ((op.after host).vars.contains x = false ∨ op.Redefines host x)

/-- The link that is there and is attached elsewhere. -/
def relinks? (host : Host) : HostOperation → Option Nat
  | relinkVariable link _ | relinkResult link _ => (host.links.find? link).map fun _ => link
  | _ => none

/-- A link removes the variable of the number that it owns, whoever made it. -/
theorem Removes.owned (h : op.Removes host x) (hlink : op.link? = some link) : host.owned? link = some x := by
  obtain ⟨hx, hgone | ⟨acting, csv, rfl, hok⟩⟩ := h
  · have hfrees : op.frees? host = some x := Classical.byContradiction fun hkept => by
      rw [(op.contains_after x).mpr (.inr ⟨hx, hkept⟩)] at hgone
      cases hgone
    exact owned_of_frees hlink hfrees
  · obtain rfl : acting = link := Option.some_inj.mp hlink
    exact owned_of_redefined hok hx

theorem unlink_removes (howned : host.owned? link = some x) (hx : host.vars.contains x = true) :
    (unlink link).Removes host x := by
  refine ⟨hx, .inl (Bool.eq_false_iff.mpr fun hstill => ?_)⟩
  exact ((unlink_contains link).mp hstill).2 howned

end HostOperation

open HostOperation

/-! ## The makers of variables -/

/-- A host, with the links through which its variables were made. A link that is attached elsewhere gives up what
it made. -/
structure Trace where
  host : Host
  maker : Int64 → Option Nat

namespace Trace

variable {t : Trace} {op : HostOperation} {x : Int64}

def next (t : Trace) (op : HostOperation) : Trace where
  host := op.after t.host
  maker x :=
    match op.defines? t.host with
    | some (id, maker) => if x = id then maker else t.maker x
    | none => (t.maker x).filter fun link => op.relinks? t.host ≠ some link

def ofOperations (ops : List HostOperation) : Trace := ops.foldl next ⟨.empty, fun _ => none⟩

/-- Whatever is done through a link next, it removes no variable but one that was made through that link. -/
def Rightful (t : Trace) : Prop :=
  ∀ (op : HostOperation) (link : Nat) (x : Int64), op.link? = some link → op.Removes t.host x →
    t.maker x = some link

/-- The operation makes a variable under a number that another link owns. -/
def Usurps (t : Trace) (op : HostOperation) : Prop :=
  ∃ x maker owner, op.defines? t.host = some (x, maker) ∧ t.host.owned? owner = some x ∧ maker ≠ some owner

/-- What a link owns was made through it, if it is there. -/
def Held (t : Trace) : Prop :=
  ∀ link x, t.host.owned? link = some x → t.host.vars.contains x = true → t.maker x = some link

theorem held_iff_rightful : t.Held ↔ t.Rightful := by
  refine ⟨fun h op link x hlink hremoves => ?_, fun h link x howned hx => ?_⟩
  · exact h link x (hremoves.owned hlink) hremoves.1
  · exact h (.unlink link) link x rfl (unlink_removes howned hx)

theorem maker_defined {maker : Option Nat} (h : op.defines? t.host = some (x, maker)) :
    (t.next op).maker x = maker := by
  simp [next, h]

/-- A variable that is not made now and whose link is not touched is its link's as before. -/
theorem maker_kept {link : Nat} (hnot : ∀ maker, op.defines? t.host ≠ some (x, maker))
    (huntouched : ∀ l, op.attaches? t.host ≠ some (link, l)) (h : t.maker x = some link) :
    (t.next op).maker x = some link := by
  have hstays : op.relinks? t.host ≠ some link := by
    intro hrelinks
    cases op <;> simp only [relinks?, reduceCtorEq, Option.map_eq_some_iff] at hrelinks
    case relinkVariable | relinkResult =>
      obtain ⟨l, hl, rfl⟩ := hrelinks
      exact huntouched _ (by simp only [attaches?, hl]; rfl)
  unfold next
  cases hd : op.defines? t.host with
  | none => simp [h, Option.filter_some, hstays]
  | some made =>
    have hx : x ≠ made.1 := by
      rintro rfl
      exact hnot made.2 hd
    simp [hx, h]

/-- An operation keeps it so unless it makes a variable under a number that another link owns. -/
theorem Held.next (h : t.Held) (hnot : ¬t.Usurps op) : (t.next op).Held := by
  intro link x howned hx
  have hmade : ∀ maker, op.defines? t.host = some (x, maker) → t.host.owned? link = some x → maker = some link :=
    fun maker hd howned => Classical.byContradiction fun hne => hnot ⟨x, maker, link, hd, howned, hne⟩
  by_cases htouched : ∃ l, op.attaches? t.host = some (link, l)
  · -- the link owns what it has just defined
    obtain ⟨l, ha⟩ := htouched
    rw [Host.owned_eq, Trace.next, find_touched ha] at howned
    obtain ⟨l, rfl, hl⟩ := Option.bind_eq_some_iff.mp howned
    exact maker_defined (defines_of_attaches ha hl)
  · have hbefore : t.host.owned? link = some x := by
      rwa [Host.owned_eq, Trace.next, find_untouched fun l ha => htouched ⟨l, ha⟩, ← Host.owned_eq] at howned
    by_cases hd : ∃ maker, op.defines? t.host = some (x, maker)
    · obtain ⟨maker, hd⟩ := hd
      rw [maker_defined hd, hmade maker hd hbefore]
    · have hthere : t.host.vars.contains x = true :=
        (((op.contains_after x).mp hx).resolve_left hd).1
      exact maker_kept (fun maker he => hd ⟨maker, he⟩) (fun l he => htouched ⟨l, he⟩) (h link x hbefore hthere)

/-- A variable that is made under a number of another link stays there, with that link as its owner. -/
theorem Usurps.not_held (h : t.Usurps op) : ¬(t.next op).Held := by
  obtain ⟨x, maker, owner, hd, howned, hne⟩ := h
  intro hheld
  have hthere : (op.after t.host).vars.contains x = true := (op.contains_after x).mpr (.inl ⟨maker, hd⟩)
  have huntouched : ∀ l, op.attaches? t.host ≠ some (owner, l) := by
    intro l ha
    rw [attaches_of_defines hd] at ha
    obtain ⟨link, hlink, he⟩ := Option.map_eq_some_iff.mp ha
    exact hne (hlink.trans (congrArg some (congrArg Prod.fst he)))
  have howner : (op.after t.host).owned? owner = some x := by
    rw [Host.owned_eq, find_untouched huntouched, ← Host.owned_eq, howned]
  exact hne ((maker_defined hd).symm.trans (hheld owner x howner hthere))

/-! ## Sequences of operations -/

theorem held_through {ops : List HostOperation} (ht : t.Held)
    (h : ∀ early op, early ++ [op] <+: ops → ¬(early.foldl Trace.next t).Usurps op) {early : List HostOperation}
    (hearly : early <+: ops) : (early.foldl Trace.next t).Held := by
  induction ops generalizing t early with
  | nil => exact List.prefix_nil.mp hearly ▸ ht
  | cons op ops ih =>
    rcases List.prefix_cons_iff.mp hearly with rfl | ⟨early, rfl, hrest⟩
    · exact ht
    · have hfirst : ¬t.Usurps op := h [] op ⟨ops, rfl⟩
      exact ih (ht.next hfirst) (fun early op' hop => h (op :: early) op' (List.cons_prefix_cons.mpr ⟨rfl, hop⟩)) hrest

theorem held_empty : (ofOperations []).Held := fun _ _ howned => nomatch howned

/-- In the course of operations, links remove nothing but what was made through them and not given up since, if
and only if no variable is made under a number that another link owns. -/
theorem ownership_rightful_iff (ops : List HostOperation) :
    (∀ early, early <+: ops → (ofOperations early).Rightful) ↔
      ∀ early op, early ++ [op] <+: ops → ¬(ofOperations early).Usurps op := by
  constructor
  · intro h early op hop husurps
    refine husurps.not_held (held_iff_rightful.mpr ?_)
    have hlater : (ofOperations (early ++ [op])).Rightful := h _ hop
    rwa [ofOperations, List.foldl_append] at hlater
  · intro h early hearly
    exact held_iff_rightful.mp (held_through held_empty h hearly)

/-- The variable of a link is removed, the application makes another one of that number, and the link takes it
away. -/
theorem foreign_variable_removed :
    let ops := [.exportVariable "2,b", .removeVariable 2, .defineVariable "2,c"]
    let t := ofOperations ops
    (ofOperations [.exportVariable "2,b", .removeVariable 2]).Usurps (.defineVariable "2,c") ∧
      t.maker 2 = none ∧ (t.host.vars.find? 2).map (·.definition.name) = some "c" ∧
      (unlink 1).Removes t.host 2 ∧ ((unlink 1).after t.host).vars.contains 2 = false ∧
      ¬∀ early, early <+: ops → (ofOperations early).Rightful := by
  intro ops t
  have husurps : (ofOperations [.exportVariable "2,b", .removeVariable 2]).Usurps (.defineVariable "2,c") :=
    ⟨2, none, 1, by decide +kernel, by decide +kernel, by decide⟩
  have hgone : ((unlink 1).after t.host).vars.contains 2 = false := by decide +kernel
  refine ⟨husurps, by decide +kernel, by decide +kernel, ⟨by decide +kernel, .inl hgone⟩, hgone, fun h => ?_⟩
  exact (ownership_rightful_iff ops).mp h _ _ (List.prefix_refl _) husurps

end Trace

end HostScript
