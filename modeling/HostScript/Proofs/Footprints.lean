import HostScript.Proofs.Bindings
import HostScript.Proofs.Runs
/-!
# What a script leaves at its host

Clearing a script removes the links that it has bound, and with them the variables that they own. So nothing of the
script stays at the host as long as each variable that it made is owned by one of its links. There are two ways to
lose hold of a variable: an owner can be pointed to the very variable that it owns, which it then owns no more, and
a variable can be defined through the link of a parameter, which stays.
-/

set_option autoImplicit false

namespace HostScript

/-! ## Removing links -/

namespace Host

/-- Whether a link that is there is attached to a variable. -/
def attached? (host : Host) (link : Nat) : Option Bool := (host.links.find? link).map (·.target.isVariable)

theorem unlink_find (host : Host) (link other : Nat) :
    (host.unlink link).links.find? other = if other = link then none else host.links.find? other := by
  rw [(@unlink_attaches host link).links, relinked]
  split
  · rename_i he
    rw [he]
    exact Directory.find_erase_self _ _
  · rename_i hne
    exact Directory.find_erase_ne _ hne

theorem unlink_owned (host : Host) (link other : Nat) :
    (host.unlink link).owned? other = if other = link then none else host.owned? other := by
  rw [owned_eq, owned_eq, unlink_find]
  split <;> rfl

theorem unlinkAll_find (links : List Nat) (host : Host) (link : Nat) :
    (links.foldl unlink host).links.find? link = if link ∈ links then none else host.links.find? link := by
  induction links generalizing host with
  | nil => simp
  | cons first links ih =>
    rw [List.foldl_cons, ih, unlink_find]
    by_cases hfirst : link = first <;> simp [hfirst]

/-- Links take along what they own. -/
theorem unlinkAll_contains (links : List Nat) (host : Host) (x : Int64) :
    (links.foldl unlink host).vars.contains x = true ↔
      host.vars.contains x = true ∧ ∀ link ∈ links, host.owned? link ≠ some x := by
  induction links generalizing host with
  | nil => simp
  | cons first links ih =>
    rw [List.foldl_cons, ih, unlink_contains, List.forall_mem_cons, and_assoc, and_congr_right_iff]
    refine fun _ => and_congr_right fun hfirst => ?_
    refine forall_congr' fun link => imp_congr_right fun _ => ?_
    rw [unlink_owned]
    by_cases he : link = first <;> simp [he, hfirst]

end Host

/-! ## Repointing -/

namespace HostOperation

variable {host : Host} {op : HostOperation} {link : Nat} {x : Int64}

theorem Repoints.link_eq (h : op.Repoints link) : op.link? = some link := by cases h <;> rfl

/-- A link that is pointed to a variable is attached to it, or stays where it is. -/
theorem Repoints.attaches (h : op.Repoints link) {change : Nat × Option HostLink}
    (ha : op.attaches? host = some change) : ∃ id owner, change = (link, some ⟨.variable id, owner⟩) := by
  cases h <;> rw [attaches?, Option.map_eq_some_iff] at ha
  case relinks id =>
    obtain ⟨_, -, rfl⟩ := ha
    exact ⟨id, false, rfl⟩
  case redefines csv =>
    obtain ⟨id, -, rfl⟩ := ha
    exact ⟨id, true, rfl⟩

/-- If it owns a variable that was there already, it owned that before. -/
theorem Repoints.owned (h : op.Repoints link) {l : HostLink} (ha : op.attaches? host = some (link, some l))
    (hl : l.owned? = some x) (hx : host.vars.contains x = true) : host.owned? link = some x := by
  cases h <;> rw [attaches?, Option.map_eq_some_iff] at ha
  case relinks id =>
    obtain ⟨_, -, he⟩ := ha
    cases he
    cases hl
  case redefines csv =>
    obtain ⟨id, hid, he⟩ := ha
    cases he
    cases hl
    exact owned_of_redefined (ok_of_toOption hid) hx

/-- A new link to a variable owns it if it is a new one. -/
theorem LinksVariable.attaches (h : LinksVariable host op) :
    ∃ id owner, op.attaches? host = some (host.lastLink + 1, some ⟨.variable id, owner⟩) ∧ op.frees? host = none ∧
      (owner = true → host.vars.contains id = false) ∧
      ∀ x maker, op.defines? host = some (x, maker) → x = id ∧ owner = true := by
  cases h with
  | imports id => exact ⟨id, false, rfl, rfl, Bool.noConfusion, fun _ _ => nofun⟩
  | exports csv id hid =>
    refine ⟨id, true, by rw [attaches?, hid]; rfl, rfl, fun _ => Host.defineVariable_fresh hid, fun x maker hx => ?_⟩
    rw [defines?, hid] at hx
    cases hx
    exact ⟨rfl, rfl⟩

end HostOperation

/-! ## Footprints -/

namespace Binding

/-- No script has bound anything: the host has the links of the parameters only, and these own nothing. -/
structure ScriptFree (home : Binding) : Prop where
  vars : home.vars = []
  results : home.results = []
  links : ∀ link, home.host.links.contains link = true → link ∈ home.parameterLinks
  parameters : ∀ link ∈ home.parameterLinks, ∃ id, home.host.links.find? link = some ⟨.variable id, false⟩
  numbered : home.host.Numbered

/-- The host is as it was: it has the links of the parameters, and the variables of the application. -/
def Restored (home b : Binding) : Prop :=
  (∀ link, b.host.links.contains link = true ↔ link ∈ home.parameterLinks) ∧
    ∀ x, b.host.vars.contains x = home.host.vars.contains x

/-- The script has a link that owns the variable. -/
def Owns (b : Binding) (x : Int64) : Prop := ∃ link ∈ b.variableLinks, b.host.owned? link = some x

/-- Every variable is the application's, or one of the script's links owns it. -/
def Tidy (home b : Binding) : Prop := ∀ x, b.host.vars.contains x = true → home.host.vars.contains x = true ∨ b.Owns x

/-- What a script that started from a host without scripts can have made of it. -/
structure Footprint (home b : Binding) : Prop where
  numbered : b.host.Numbered
  parameters : b.parameterLinks = home.parameterLinks
  vars : ∀ link, link ∈ b.variableLinks ∨ link ∈ b.parameterLinks ↔ b.host.attached? link = some true
  results : ∀ link, link ∈ b.resultLinks ↔ b.host.attached? link = some false
  apart : ∀ link ∈ b.parameterLinks, link ∉ b.variableLinks
  present : ∀ x, home.host.vars.contains x = true → b.host.vars.contains x = true
  unowned : ∀ x, home.host.vars.contains x = true → ∀ link, b.host.owned? link ≠ some x

/-- An operation leaves a variable behind that no link of the script owns any more. -/
inductive Abandons (b : Binding) : HostOperation → Prop
  | relinks (link : Nat) (id : Int64) : b.host.owned? link = some id → b.host.vars.contains id = true →
    (∀ other ∈ b.variableLinks, other ≠ link → b.host.owned? other ≠ some id) → Abandons b (.relinkVariable link id)
  | redefines (link : Nat) (csv : String) (id : Int64) : link ∈ b.parameterLinks →
    (b.host.redefineVariable link csv).2 = .ok id → (∀ other ∈ b.variableLinks, b.host.owned? other ≠ some id) →
    Abandons b (.redefineVariable link csv)

variable {home b b' : Binding} {op : HostOperation} {link : Nat}

theorem scriptFree_empty : empty.ScriptFree where
  vars := rfl
  results := rfl
  links := fun _ hlink => nomatch hlink
  parameters := fun _ hlink => nomatch hlink
  numbered := fun _ _ hlink => nomatch hlink

theorem clear_parameterLinks (b : Binding) : b.clear.parameterLinks = b.parameterLinks := by
  simp [parameterLinks, clear]

theorem ScriptFree.clear_host (h : home.ScriptFree) : home.clear.host = home.host := by simp [clear, h.vars, h.results]

theorem ScriptFree.attached (h : home.ScriptFree) (link : Nat) :
    home.host.attached? link = if link ∈ home.parameterLinks then some true else none := by
  split
  · rename_i hlink
    obtain ⟨id, hfind⟩ := h.parameters link hlink
    rw [Host.attached?, hfind]
    rfl
  · rename_i hlink
    rw [Host.attached?, Option.map_eq_none_iff]
    cases hfind : home.host.links.find? link with
    | none => rfl
    | some l => exact absurd (h.links link (by rw [Directory.contains, hfind]; rfl)) hlink

theorem ScriptFree.footprint (h : home.ScriptFree) : Footprint home home.clear where
  numbered := h.clear_host ▸ h.numbered
  parameters := clear_parameterLinks home
  vars := by
    intro link
    rw [h.clear_host, h.attached, clear_parameterLinks]
    simp [variableLinks, clear]
  results := by
    intro link
    rw [h.clear_host, h.attached]
    simp [resultLinks, clear]
  apart := fun link _ hlink => nomatch hlink
  present := fun x hx => h.clear_host ▸ hx
  unowned := by
    intro x _ link howned
    rw [h.clear_host] at howned
    have hfind := Host.find_of_owned howned
    obtain ⟨id, hparameter⟩ := h.parameters link (h.links link (by rw [Directory.contains, hfind]; rfl))
    rw [hfind] at hparameter
    cases hparameter

theorem ScriptFree.tidy (h : home.ScriptFree) : Tidy home home.clear := fun _ hx => .inl (h.clear_host ▸ hx)

/-! ### Clearing -/

theorem Footprint.not_result (h : Footprint home b) (hlink : link ∈ b.variableLinks ∨ link ∈ b.parameterLinks) :
    link ∉ b.resultLinks := by
  rw [h.results, (h.vars link).mp hlink]
  simp

theorem Footprint.result_owned (h : Footprint home b) (hlink : link ∈ b.resultLinks) : b.host.owned? link = none := by
  have hattached := (h.results link).mp hlink
  unfold Host.attached? at hattached
  rw [Host.owned_eq]
  rcases hfind : b.host.links.find? link with _ | ⟨id | id, owner⟩
  · rfl
  · rw [hfind] at hattached
    cases hattached
  · rfl

/-- Clearing removes the links of the script, and the variables that they own. -/
theorem clear_host (b : Binding) : b.clear.host = (b.variableLinks ++ b.resultLinks).foldl Host.unlink b.host := rfl

theorem Footprint.clear_contains (h : Footprint home b) (x : Int64) :
    b.clear.host.vars.contains x = true ↔ b.host.vars.contains x = true ∧ ¬b.Owns x := by
  rw [clear_host, Host.unlinkAll_contains]
  refine and_congr_right fun _ => ⟨?_, ?_⟩
  · rintro hall ⟨link, hlink, howned⟩
    exact hall link (List.mem_append_left _ hlink) howned
  · rintro hnot link hlink howned
    rcases List.mem_append.mp hlink with hlink | hlink
    · exact hnot ⟨link, hlink, howned⟩
    · rw [h.result_owned hlink] at howned
      cases howned

theorem Footprint.clear_links (h : Footprint home b) (link : Nat) :
    b.clear.host.links.contains link = true ↔ link ∈ home.parameterLinks := by
  have hlive : b.host.links.contains link = (b.host.attached? link).isSome := by
    rw [Host.attached?, Option.isSome_map, Directory.contains]
  rw [clear_host, Directory.contains, Host.unlinkAll_find, ← h.parameters]
  constructor
  · intro hleft
    split at hleft
    · cases hleft
    · rename_i hnot
      rw [List.mem_append, not_or] at hnot
      change b.host.links.contains link = true at hleft
      rw [hlive] at hleft
      rcases hkind : b.host.attached? link with _ | _ | _
      · rw [hkind] at hleft
        cases hleft
      · exact absurd ((h.results link).mpr hkind) hnot.2
      · exact ((h.vars link).mpr hkind).resolve_left hnot.1
  · intro hlink
    rw [if_neg (by simp [h.apart link hlink, h.not_result (.inr hlink)])]
    change b.host.links.contains link = true
    rw [hlive, (h.vars link).mp (.inr hlink)]
    rfl

/-- Clearing restores the host exactly if all is tidy. -/
theorem Footprint.restored_iff (h : Footprint home b) : Restored home b.clear ↔ Tidy home b := by
  refine ⟨fun hrestored x hx => ?_, fun htidy => ⟨h.clear_links, fun x => ?_⟩⟩
  · rw [← hrestored.2 x, h.clear_contains]
    exact (Classical.em (b.Owns x)).elim .inr fun hnot => .inl ⟨hx, hnot⟩
  · rw [Bool.eq_iff_iff, h.clear_contains]
    refine ⟨fun ⟨hx, hnot⟩ => (htidy x hx).resolve_right hnot, fun hx => ⟨h.present x hx, ?_⟩⟩
    rintro ⟨link, -, howned⟩
    exact h.unowned x hx link howned

/-! ### Steps -/

/-- The next link is not bound yet. -/
theorem Footprint.fresh (h : Footprint home b) :
    (b.host.lastLink + 1 ∉ b.variableLinks ∧ b.host.lastLink + 1 ∉ b.parameterLinks) ∧
      b.host.lastLink + 1 ∉ b.resultLinks := by
  have hnone : b.host.attached? (b.host.lastLink + 1) = none := by
    rw [Host.attached?, h.numbered.fresh]
    rfl
  constructor
  · rw [← not_or, h.vars, hnone]
    simp
  · rw [h.results, hnone]
    simp

/-- No link is touched. -/
theorem Footprint.unattached (h : Footprint home b) (hsame : b.SameLinks b') (hlinks : b'.host.links = b.host.links)
    (hnumbered : b'.host.Numbered) (hpresent : ∀ x, home.host.vars.contains x = true → b'.host.vars.contains x = true) :
    Footprint home b' where
  numbered := hnumbered
  parameters := hsame.parameters.trans h.parameters
  vars := by
    intro link
    rw [hsame.vars, hsame.parameters, Host.attached?, hlinks]
    exact h.vars link
  results := by
    intro link
    rw [hsame.results, Host.attached?, hlinks]
    exact h.results link
  apart := by
    rw [hsame.vars, hsame.parameters]
    exact h.apart
  present := hpresent
  unowned := by
    intro x hx link
    rw [Host.owned_eq, hlinks, ← Host.owned_eq]
    exact h.unowned x hx link

/-- One link is attached. -/
theorem Footprint.attached (h : Footprint home b) {l : HostLink} (ha : op.attaches? b.host = some (link, some l))
    (hhost : b'.host = op.after b.host) (hparameters : b'.parameterLinks = b.parameterLinks)
    (hvariables : ∀ other, other ∈ b'.variableLinks ∨ other ∈ b'.parameterLinks ↔
      if other = link then l.target.isVariable = true else other ∈ b.variableLinks ∨ other ∈ b.parameterLinks)
    (hresults : ∀ other, other ∈ b'.resultLinks ↔
      if other = link then l.target.isVariable = false else other ∈ b.resultLinks)
    (hapart : ∀ other ∈ b'.parameterLinks, other ∉ b'.variableLinks)
    (hfrees : ∀ x, home.host.vars.contains x = true → op.frees? b.host ≠ some x)
    (hdefines : ∀ x, home.host.vars.contains x = true → l.owned? ≠ some x) : Footprint home b' := by
  have hkind : ∀ other, b'.host.attached? other =
      if other = link then some l.target.isVariable else b.host.attached? other := by
    intro other
    rw [hhost, Host.attached?, HostOperation.find_attached ha]
    split <;> rfl
  refine ⟨?_, hparameters.trans h.parameters, fun other => ?_, fun other => ?_, hapart, fun x hx => ?_,
    fun x hx other => ?_⟩
  · exact hhost ▸ op.numbered_after h.numbered
  · rw [hvariables, hkind]
    split
    · simp
    · exact h.vars other
  · rw [hresults, hkind]
    split
    · simp
    · exact h.results other
  · rw [hhost, op.contains_after]
    exact .inr ⟨h.present x hx, hfrees x hx⟩
  · rw [hhost, HostOperation.owned_attached ha]
    split
    · exact hdefines x hx
    · exact h.unowned x hx other

theorem Footprint.live (h : Footprint home b)
    (hlink : link ∈ b.variableLinks ∨ link ∈ b.parameterLinks ∨ link ∈ b.resultLinks) :
    ∃ l, b.host.links.find? link = some l := by
  have hattached : ∃ kind, b.host.attached? link = some kind := by
    rw [← or_assoc] at hlink
    rcases hlink with hlink | hlink
    · exact ⟨_, (h.vars link).mp hlink⟩
    · exact ⟨_, (h.results link).mp hlink⟩
  obtain ⟨kind, hkind⟩ := hattached
  obtain ⟨l, hl, -⟩ := Option.map_eq_some_iff.mp hkind
  exact ⟨l, hl⟩

/-- A link of a result can be pointed to another one. -/
theorem Footprint.relinkResult_attaches (h : Footprint home b) (hlink : link ∈ b.resultLinks) (id : Int64) :
    ∃ l : HostLink, (HostOperation.relinkResult link id).attaches? b.host =
      some (link, some { l with target := .result id }) := by
  obtain ⟨l, hl⟩ := h.live (.inr (.inr hlink))
  exact ⟨l, by simp [HostOperation.attaches?, hl]⟩

theorem Footprint.repointed (h : Footprint home b) (hop : op.Repoints link)
    (hlink : link ∈ b.variableLinks ∨ link ∈ b.parameterLinks) : Footprint home { b with host := op.after b.host } := by
  have hfrees : ∀ x, home.host.vars.contains x = true → op.frees? b.host ≠ some x := by
    intro x hx hfree
    exact h.unowned x hx link (HostOperation.owned_of_frees hop.link_eq hfree)
  cases ha : op.attaches? b.host with
  | none =>
    have hlinks : (op.after b.host).links = b.host.links := HostOperation.links_unattached ha
    refine h.unattached ⟨rfl, rfl, rfl⟩ hlinks (op.numbered_after h.numbered) fun x hx => ?_
    exact (op.contains_after x).mpr (.inr ⟨h.present x hx, hfrees x hx⟩)
  | some change =>
    obtain ⟨id, owner, rfl⟩ := hop.attaches ha
    refine h.attached ha rfl rfl (fun other => ?_) (fun other => ?_) h.apart hfrees fun x hx howned => ?_
    · split
      · rename_i he
        exact iff_of_true (he ▸ hlink) rfl
      · rfl
    · split
      · rename_i he
        exact iff_of_false (he ▸ h.not_result hlink) Bool.noConfusion
      · rfl
    · exact h.unowned x hx link (hop.owned ha howned (h.present x hx))

theorem Footprint.bindsVariable (h : Footprint home b) (hop : op.LinksVariable b.host) {v : VariableBinding}
    (hv : v.link = b.host.lastLink + 1) :
    Footprint home { b with host := op.after b.host, vars := b.vars ++ [v] } := by
  obtain ⟨id, owner, ha, hfrees, hfresh, -⟩ := hop.attaches
  obtain ⟨⟨-, hparameter⟩, hresult⟩ := h.fresh
  have hlinks : variableLinks { b with host := op.after b.host, vars := b.vars ++ [v] } =
      b.variableLinks ++ [b.host.lastLink + 1] := by simp [variableLinks, hv]
  refine h.attached ha rfl rfl (fun other => ?_) (fun other => ?_) (fun other hother => ?_) (fun x _ => ?_)
    fun x hx howned => ?_
  · rw [hlinks, List.mem_append, List.mem_singleton]
    split
    · rename_i he
      exact iff_of_true (.inl (.inr he)) rfl
    · rename_i hne
      rw [or_iff_left hne]
      rfl
  · split
    · rename_i he
      exact iff_of_false (he ▸ hresult) Bool.noConfusion
    · rfl
  · rw [hlinks, List.mem_append, List.mem_singleton, not_or]
    exact ⟨h.apart other hother, fun he => hparameter (he ▸ hother)⟩
  · rw [hfrees]
    exact (Option.some_ne_none x).symm
  · cases owner with
    | false => cases howned
    | true =>
      cases howned
      rw [h.present _ hx] at hfresh
      cases hfresh rfl

theorem Footprint.bindsResult (h : Footprint home b) (id : Int64) {r : ResultBinding}
    (hr : r.link = b.host.lastLink + 1) :
    Footprint home { b with host := HostOperation.after b.host (.linkResult id), results := b.results ++ [r] } := by
  obtain ⟨hvariable, -⟩ := h.fresh
  have hlinks :
      resultLinks { b with host := HostOperation.after b.host (.linkResult id), results := b.results ++ [r] } =
        b.resultLinks ++ [b.host.lastLink + 1] := by simp [resultLinks, hr]
  have ha : (HostOperation.linkResult id).attaches? b.host = some (b.host.lastLink + 1, some ⟨.result id, false⟩) := rfl
  refine h.attached ha rfl rfl (fun other => ?_) (fun other => ?_) h.apart
    (fun x _ hfree => Option.some_ne_none x hfree.symm) fun x _ howned => Option.some_ne_none x howned.symm
  · split
    · rename_i he
      exact iff_of_false (he ▸ not_or.mpr hvariable) Bool.noConfusion
    · rfl
  · rw [hlinks, List.mem_append, List.mem_singleton]
    split
    · rename_i he
      exact iff_of_true (.inr he) rfl
    · rename_i hne
      exact or_iff_left hne

/-- What a script does to its binding, it can have made of it. -/
theorem Footprint.step {deed : Option LinkDeed} (h : Footprint home b) (hstep : BindingStep b deed b') :
    Footprint home b' := by
  cases hstep with
  | rests hsame hhost =>
    refine h.unattached hsame.toSameLinks hhost.links ?_ fun x hx => (hhost.contains x).trans (h.present x hx)
    intro link l hl
    rw [hhost.links] at hl
    exact hhost.lastLink ▸ h.numbered link l hl
  | settles hsame hhost =>
    exact h.unattached hsame (congrArg _ hhost) (hhost ▸ h.numbered) fun x hx => hhost ▸ h.present x hx
  | hooks link f hf => exact h.unattached (b.modifyVariable_links link hf) rfl h.numbered h.present
  | points op link hop hlink => exact h.repointed hop hlink
  | relinksResult link id hlink =>
    obtain ⟨l, ha⟩ := h.relinkResult_attaches hlink id
    refine h.attached ha rfl rfl (fun other => ?_) (fun other => ?_) h.apart
      (fun x _ hfree => Option.some_ne_none x hfree.symm) fun x _ howned => Option.some_ne_none x howned.symm
    · split
      · rename_i he
        exact iff_of_false (fun hother => h.not_result hother (he ▸ hlink)) Bool.noConfusion
      · rfl
    · split
      · rename_i he
        exact iff_of_true (he ▸ hlink) rfl
      · rfl
  | bindsVariable op v hop hv => exact h.bindsVariable hop hv
  | bindsResult id r hr => exact h.bindsResult id hr

/-! ### Keeping hold -/

/-- What is new is owned, and what was owned still is. -/
theorem Tidy.mono (h : Tidy home b)
    (hnew : ∀ x, b'.host.vars.contains x = true → b.host.vars.contains x = true ∨ b'.Owns x)
    (howns : ∀ x, b.Owns x → b'.Owns x) : Tidy home b' := fun x hx =>
  (hnew x hx).elim (fun hx => (h x hx).imp_right (howns x)) .inr

/-- Variables may go. -/
theorem Tidy.unattached (h : Tidy home b) (ha : op.attaches? b.host = none) (hd : op.defines? b.host = none) :
    Tidy home { b with host := op.after b.host } := by
  refine h.mono (fun x hx => .inl ?_) fun x howns => ?_
  · rcases (op.contains_after x).mp hx with ⟨link, hdefined⟩ | ⟨hx, -⟩
    · rw [hd] at hdefined
      cases hdefined
    · exact hx
  · obtain ⟨link, hlink, hown⟩ := howns
    exact ⟨link, hlink, by rw [Host.owned_eq, HostOperation.links_unattached ha, ← Host.owned_eq, hown]⟩

/-- A link drops the variable that it owned, unless it is pointed to that one. -/
theorem Footprint.tidy_dropped_iff (h : Footprint home b) (ht : Tidy home b) {host : Host} {id : Int64}
    (howned : ∀ other, host.owned? other = if other = link then none else b.host.owned? other)
    (hcontains : ∀ x, host.vars.contains x = true ↔
      b.host.vars.contains x = true ∧ (b.host.owned? link).filter (· ≠ id) ≠ some x) :
    Tidy home { b with host := host } ↔ ¬b.Abandons (.relinkVariable link id) := by
  constructor
  · intro htidy habandons
    cases habandons with
    | relinks _ _ hown hid hothers =>
      have hthere : host.vars.contains id = true := (hcontains id).mpr ⟨hid, by simp [hown, Option.filter_some]⟩
      rcases htidy id hthere with hhome | ⟨other, hother, hown'⟩
      · exact h.unowned id hhome link hown
      · rw [howned] at hown'
        split at hown'
        · cases hown'
        · rename_i hne
          exact hothers other hother hne hown'
  · intro hnot x hx
    obtain ⟨hthere, hkept⟩ := (hcontains x).mp hx
    rcases ht x hthere with hhome | ⟨other, hother, hown⟩
    · exact .inl hhome
    · refine .inr (Classical.byContradiction fun hno => ?_)
      by_cases he : other = link
      · -- the owner itself is pointed elsewhere, and its variable stays
        rw [he] at hown
        have hsame : x = id := by simpa [hown, Option.filter_some] using hkept
        subst hsame
        exact hnot (.relinks link x hown hthere fun other hother hne hown => hno ⟨other, hother, by
          rw [howned, if_neg hne, hown]⟩)
      · exact hno ⟨other, hother, by rw [howned, if_neg he, hown]⟩

/-- A link owns the variable that it defines; it must be one of the script's. -/
theorem Footprint.tidy_defined_iff (h : Footprint home b) (ht : Tidy home b) {host : Host} {id : Int64} {csv : String}
    (hlink : link ∈ b.variableLinks ∨ link ∈ b.parameterLinks) (hr : (b.host.redefineVariable link csv).2 = .ok id)
    (howned : ∀ other, host.owned? other = if other = link then some id else b.host.owned? other)
    (hcontains : ∀ x, host.vars.contains x = true ↔
      x = id ∨ b.host.vars.contains x = true ∧ b.host.owned? link ≠ some x) :
    Tidy home { b with host := host } ↔ ¬b.Abandons (.redefineVariable link csv) := by
  constructor
  · intro htidy habandons
    cases habandons with
    | redefines _ _ id' hparameter hok hothers =>
      obtain rfl : id = id' := Except.ok.inj (hr.symm.trans hok)
      rcases htidy id ((hcontains id).mpr (.inl rfl)) with hhome | ⟨other, hother, hown⟩
      · exact h.unowned id hhome link (HostOperation.owned_of_redefined hr (h.present id hhome))
      · rw [howned] at hown
        split at hown
        · rename_i he
          exact h.apart link hparameter (he ▸ hother)
        · exact hothers other hother hown
  · intro hnot x hx
    rcases (hcontains x).mp hx with rfl | ⟨hthere, hkept⟩
    · rcases hlink with hlink | hlink
      · exact .inr ⟨link, hlink, by rw [howned, if_pos rfl]⟩
      · refine .inr (Classical.byContradiction fun hno => hnot (.redefines link csv x hlink hr ?_))
        intro other hother hown
        have hne : other ≠ link := fun he => h.apart link hlink (he ▸ hother)
        exact hno ⟨other, hother, by rw [howned, if_neg hne, hown]⟩
    · refine (ht x hthere).imp_right fun ⟨other, hother, hown⟩ => ⟨other, hother, ?_⟩
      have hne : other ≠ link := by
        rintro rfl
        exact hkept hown
      rw [howned, if_neg hne, hown]

/-- A link that is pointed to another variable loses hold of no variable, unless it abandons one. -/
theorem Footprint.repointed_tidy_iff (h : Footprint home b) (ht : Tidy home b) (hop : op.Repoints link)
    (hlink : link ∈ b.variableLinks ∨ link ∈ b.parameterLinks) :
    Tidy home { b with host := op.after b.host } ↔ ¬b.Abandons op := by
  cases hop with
  | relinks id =>
    obtain ⟨l, hl⟩ := h.live (hlink.imp_right .inl)
    have ha : (HostOperation.relinkVariable link id).attaches? b.host = some (link, some ⟨.variable id, false⟩) := by
      simp [HostOperation.attaches?, hl]
    exact h.tidy_dropped_iff ht (HostOperation.owned_attached ha) fun x => Host.relinkVariable_contains link id
  | redefines csv =>
    cases hr : (b.host.redefineVariable link csv).2 with
    | error e =>
      have ha : (HostOperation.redefineVariable link csv).attaches? b.host = none := by
        rw [HostOperation.attaches?, hr]
        rfl
      have hd : (HostOperation.redefineVariable link csv).defines? b.host = none := by
        rw [HostOperation.defines?, hr]
        rfl
      refine iff_of_true (ht.unattached ha hd) fun habandons => ?_
      cases habandons with
      | redefines _ _ id _ hok =>
        rw [hr] at hok
        cases hok
    | ok id =>
      have ha : (HostOperation.redefineVariable link csv).attaches? b.host =
          some (link, some ⟨.variable id, true⟩) := by
        rw [HostOperation.attaches?, hr]
        rfl
      refine h.tidy_defined_iff ht hlink hr (HostOperation.owned_attached ha) fun x => ?_
      rw [HostOperation.after]
      exact Host.redefined_contains hr

/-- A variable that is made along with its link is owned by it. -/
theorem Footprint.bindsVariable_tidy (h : Footprint home b) (ht : Tidy home b) (hop : op.LinksVariable b.host)
    {v : VariableBinding} (hv : v.link = b.host.lastLink + 1) :
    Tidy home { b with host := op.after b.host, vars := b.vars ++ [v] } := by
  obtain ⟨id, owner, ha, -, -, hdefines⟩ := hop.attaches
  have howned := fun other => HostOperation.owned_attached ha other
  refine ht.mono (fun x hx => ?_) fun x ⟨link, hlink, hown⟩ => ⟨link, ?_, ?_⟩
  · rcases (op.contains_after x).mp hx with ⟨maker, hdefined⟩ | ⟨hx, -⟩
    · obtain ⟨rfl, rfl⟩ := hdefines x maker hdefined
      exact .inr ⟨v.link, List.mem_map_of_mem (List.mem_append_right _ (List.mem_singleton_self v)), by
        rw [howned, if_pos hv]
        rfl⟩
    · exact .inl hx
  · rw [variableLinks, List.map_append]
    exact List.mem_append_left _ hlink
  · have hne : link ≠ b.host.lastLink + 1 := fun he => h.fresh.1.1 (he ▸ hlink)
    rw [howned, if_neg hne, hown]

/-- The links stay where they are. -/
theorem Tidy.same (h : Tidy home b) (hsame : b.SameLinks b') (hhost : b.host.SameStock b'.host) : Tidy home b' := by
  refine h.mono (fun x hx => .inl (hhost.contains x ▸ hx)) fun x ⟨link, hlink, hown⟩ => ?_
  exact ⟨link, hsame.vars ▸ hlink, (hhost.owned link).trans hown⟩

/-- All stays tidy after a step that points no link to another variable. -/
theorem Footprint.step_tidy {deed : Option LinkDeed} (h : Footprint home b) (ht : Tidy home b)
    (hstep : BindingStep b deed b') (hdeed : ∀ op, deed ≠ some (.points op)) : Tidy home b' := by
  cases hstep with
  | points op => exact absurd rfl (hdeed op)
  | rests hsame hhost => exact ht.same hsame.toSameLinks hhost
  | settles hsame hhost => exact ht.same hsame (hhost ▸ .rfl)
  | hooks link f hf => exact ht.same (b.modifyVariable_links link hf) .rfl
  | relinksResult link id hlink =>
    refine ht.mono (fun x hx => .inl ?_) fun x howns => ?_
    · rwa [HostOperation.after, Host.relinkResult_vars] at hx
    · obtain ⟨other, hother, hown⟩ := howns
      obtain ⟨l, ha⟩ := h.relinkResult_attaches hlink id
      have hne : other ≠ link := fun he => h.not_result (.inl hother) (he ▸ hlink)
      exact ⟨other, hother, by rw [HostOperation.owned_attached ha, if_neg hne, hown]⟩
  | bindsVariable op v hop hv => exact h.bindsVariable_tidy ht hop hv
  | bindsResult id r hr =>
    refine ht.mono (fun x hx => .inl hx) fun x howns => ?_
    obtain ⟨link, hlink, hown⟩ := howns
    have ha : (HostOperation.linkResult id).attaches? b.host =
        some (b.host.lastLink + 1, some ⟨.result id, false⟩) := rfl
    have hne : link ≠ b.host.lastLink + 1 := fun he => h.fresh.1.1 (he ▸ hlink)
    exact ⟨link, hlink, by rw [HostOperation.owned_attached ha, if_neg hne, hown]⟩

/-- All stays tidy after a step exactly if it abandons nothing. -/
theorem Footprint.step_tidy_iff {deed : Option LinkDeed} (h : Footprint home b) (ht : Tidy home b)
    (hstep : BindingStep b deed b') : Tidy home b' ↔ ∀ op, deed = some (.points op) → ¬b.Abandons op := by
  by_cases hpoints : ∃ op, deed = some (.points op)
  · obtain ⟨op, rfl⟩ := hpoints
    cases hstep with
    | points _ link hop hlink =>
      refine (h.repointed_tidy_iff ht hop hlink).trans ⟨fun hnot other he => ?_, fun hnot => hnot op rfl⟩
      cases he
      exact hnot
  · exact iff_of_true (h.step_tidy ht hstep fun op he => hpoints ⟨op, he⟩) fun op he => absurd ⟨op, he⟩ hpoints

end Binding

/-! ## Runs -/

open Binding ScriptState

variable {κ μ : Type} [NativeObject κ μ]

/-- The script points a link to another variable, and leaves one behind. -/
def Effect.Abandons (e : Effect κ μ) : Prop := ∃ op, e.deed? = some (.points op) ∧ e.before.binding.Abandons op

/-- A script that started from a host without scripts, after some effects. -/
structure Footprint.Along (home : Binding) (s : ScriptState κ) (es : List (Effect κ μ)) : Prop where
  footprint : Footprint home s.binding
  known : s.arena.All s.binding.Knows
  restored_iff : (∀ e ∈ es, Restored home e.after.binding.clear) ↔ ∀ e ∈ es, ¬e.Abandons
  tidy : (∀ e ∈ es, ¬e.Abandons) → Tidy home s.binding

namespace Footprint.Along

variable {home : Binding} {s t : ScriptState κ} {es : List (Effect κ μ)} {registry : Registry κ}
  {deed : Option LinkDeed}

omit [NativeObject κ μ] in
theorem quiet (h : Along home s es) (hc : s.Changes deed t) (hdeed : ∀ op, deed ≠ some (.points op)) :
    Along home t es where
  footprint := h.footprint.step hc.step
  known := hc.known h.known
  restored_iff := h.restored_iff
  tidy := fun hnone => h.footprint.step_tidy (h.tidy hnone) hc.step hdeed

omit [NativeObject κ μ] in
theorem effect (h : Along home s es) (use : Use μ) (hc : s.Changes (Effect.mk s use t).deed? t) :
    Along home t (es ++ [⟨s, use, t⟩]) := by
  have hfootprint := h.footprint.step hc.step
  have htidy : (∀ e ∈ es, ¬e.Abandons) → (Tidy home t.binding ↔ ¬(Effect.mk s use t).Abandons) := by
    intro hnone
    rw [h.footprint.step_tidy_iff (h.tidy hnone) hc.step]
    simp [Effect.Abandons]
  refine ⟨hfootprint, hc.known h.known, ?_, fun hnone => ?_⟩
  · simp only [List.forall_mem_append, List.forall_mem_singleton, h.restored_iff]
    exact and_congr_right fun hnone => hfootprint.restored_iff.trans (htidy hnone)
  · rw [List.forall_mem_append, List.forall_mem_singleton] at hnone
    exact (htidy hnone.1).mpr hnone.2

theorem lasting (home : Binding) (registry : Registry κ) : Interpreter.Lasting (μ := μ) registry (Along home) where
  access _ _ i a h _ := h.effect (.access i a) (access_does registry h.known i a)
  release _ _ o h := h.effect (.release o) (release_changes registry o)
  world _ _ _ hst _ h := h.quiet (.of_world hst) nofun

/-- What compiling makes of a host without scripts is tidy. -/
theorem compile {i : Interpreter κ} (hi : i.script.phase ≠ .running) (hhome : i.script.binding.ScriptFree)
    (source : String) : Along i.script.binding (i.compile source).1.script ([] : List (Effect κ μ)) := by
  have hclear : Along i.script.binding i.clear.script ([] : List (Effect κ μ)) :=
    ⟨hhome.footprint, Arena.all_empty, by simp, fun _ => hhome.tidy⟩
  have hpreserves : Compiler.Preserves (declarations i.registry)
      fun s : ScriptState κ => Along i.script.binding s ([] : List (Effect κ μ)) :=
    ⟨fun _ _ h => h.quiet (.of_step .unchanged rfl) nofun, fun text _ _ h => h.quiet (statement_does _ text) nofun⟩
  exact compile_keeps i source hi hpreserves (fun s h => h.quiet (link_changes s) nofun)
    (fun s t hst _ h => h.quiet (.of_world hst) nofun) hclear

end Footprint.Along

/-- In the course of whatever is done with a script, clearing it would leave the host as it was before the script,
with the links of the parameters and the variables of the application, exactly if no link loses hold of a variable
that the script made. -/
theorem footprint_undone_iff (i : Interpreter κ) (source : String) (hi : i.script.phase ≠ .running)
    (hhome : i.script.binding.ScriptFree) (ops : List Operation) (hops : ∀ f, .changeBinding f ∉ ops) :
    ((∀ e ∈ Operation.runEffects (i.compile source).1 ops, Restored i.script.binding e.after.binding.clear) ∧
        ∀ j ∈ Operation.run (i.compile source).1 ops, Restored i.script.binding j.clear.script.binding) ↔
      ∀ e ∈ Operation.runEffects (i.compile source).1 ops, ¬e.Abandons := by
  have hkeeps : ∀ op ∈ ops, op.Keeps (Footprint.Along (κ := κ) (μ := μ) i.script.binding) := by
    intro op hop
    cases op with
    | changeBinding f => exact absurd hop (hops f)
    | _ => trivial
  have hrun := Operation.run_lasts (Footprint.Along.lasting i.script.binding (i.compile source).1.registry)
    ⟨rfl, Footprint.Along.compile hi hhome source⟩ ops hkeeps
  rw [List.nil_append] at hrun
  generalize Operation.runEffects (i.compile source).1 ops = es at hrun ⊢
  cases hr : Operation.run (i.compile source).1 ops with
  | none =>
    rw [hr] at hrun
    obtain ⟨t, ht⟩ := hrun
    exact ⟨fun h => ht.restored_iff.mp h.1, fun h => ⟨ht.restored_iff.mpr h, fun j hj => nomatch hj⟩⟩
  | some j =>
    rw [hr] at hrun
    obtain ⟨-, hj⟩ := hrun
    refine ⟨fun h => hj.restored_iff.mp h.1, fun h => ⟨hj.restored_iff.mpr h, fun k hk => ?_⟩⟩
    rw [← Option.some_inj.mp hk]
    exact hj.footprint.restored_iff.mpr (hj.tidy h)

/-- A script makes a variable and points the owner to that very variable: it stays when the script is cleared. -/
theorem relinked_variable_left :
    let i : Interpreter Empty := .new .empty true 0
    let j := (i.compile "object v; return; :main; v = Variable(\"0x60,L,,,,INTEGER\"); v.Setup(0x60); return;").1
    let ops := [Operation.execute 100 .init, Operation.execute 100 .run]
    i.script.phase ≠ .running ∧ i.script.binding.ScriptFree ∧ (∀ f, .changeBinding f ∉ ops) ∧
      i.script.host.vars.contains 0x60 = false ∧
      (Operation.run j ops).map (fun k => (k.clear.script.host.linkCount, k.clear.script.host.vars.contains 0x60)) =
        some (0, true) ∧
      ∃ e ∈ Operation.runEffects j ops, e.Abandons := by
  intro i j ops
  have hphase : i.script.phase ≠ .running := by decide
  have hops : ∀ f, .changeBinding f ∉ ops := by simp [ops]
  have hbefore : i.script.host.vars.contains 0x60 = false := rfl
  have hleft : (Operation.run j ops).map
      (fun k => (k.clear.script.host.linkCount, k.clear.script.host.vars.contains 0x60)) = some (0, true) := by
    decide +kernel
  refine ⟨hphase, scriptFree_empty, hops, hbefore, hleft, Classical.byContradiction fun hnone => ?_⟩
  have hkept : ∀ e ∈ Operation.runEffects j ops, ¬e.Abandons := fun e he habandons => hnone ⟨e, he, habandons⟩
  obtain ⟨k, hk, hthere⟩ := Option.map_eq_some_iff.mp hleft
  have hrestored := ((footprint_undone_iff i _ hphase scriptFree_empty ops hops).mpr hkept).2 k hk
  have hcontains : k.clear.script.host.vars.contains 0x60 = false := (hrestored.2 0x60).trans hbefore
  rw [Prod.mk.injEq, hcontains] at hthere
  cases hthere.2

end HostScript
