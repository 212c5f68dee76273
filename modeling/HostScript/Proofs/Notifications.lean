import HostScript.Proofs.HostSteps
import HostScript.Proofs.TypedVariables
/-!
# Notifications

Nothing changes silently: who stays attached to a variable is told when it appears, disappears or is defined
anew, when its value changes and when its flags do. One way of changing is silent after all. A link that
defines its variable anew under another number takes the old variable away, and nobody who is attached there
is told.
-/

set_option autoImplicit false

namespace HostScript

namespace Host

variable {host host' : Host} {link : Nat} {x : Int64} {acting : Option Nat} {csv : String}

/-! ## What is seen of a variable -/

def definition? (host : Host) (x : Int64) : Option VariableDefinition := (host.vars.find? x).map (·.definition)

def current? (host : Host) (x : Int64) : Option Value := (host.vars.find? x).map (·.current)

def flags? (host : Host) (x : Int64) : Option VariableFlags := (host.vars.find? x).map (·.flags)

/-! ## Sound hosts -/

/-- No link is listed twice, and every variable holds a value of its type. -/
structure Sound (host : Host) : Prop where
  links : host.links.Increasing
  typed : ∀ x v, host.vars.find? x = some v → v.Typed

theorem LinkStep.increasing (h : LinkStep host host') (hlinks : host.links.Increasing) : host'.links.Increasing := by
  cases h with
  | kept hl => exact hl ▸ hlinks
  | attached link l hl => exact hl ▸ hlinks.insert link l
  | removed link hl => exact hl ▸ hlinks.erase link

/-- A variable that is put in place of another leaves the host typed. -/
theorem typed_insert {vars : Directory Int64 Variable} (hvars : ∀ x v, vars.find? x = some v → v.Typed) {id : Int64}
    {w : Variable} (hw : w.Typed) (x : Int64) (v : Variable) (h : (vars.insert id w).find? x = some v) : v.Typed := by
  rw [Directory.find_insert] at h
  split at h
  · exact Option.some_inj.mp h ▸ hw
  · exact hvars x v h

theorem typed_erase {vars : Directory Int64 Variable} (hvars : ∀ x v, vars.find? x = some v → v.Typed) (id : Int64)
    (x : Int64) (v : Variable) (h : (vars.erase id).find? x = some v) : v.Typed := by
  by_cases hx : x = id
  · rw [hx, Directory.find_erase_self] at h
    cases h
  · rw [Directory.find_erase_ne _ hx] at h
    exact hvars x v h

theorem Sound.step (h : host.Sound) (hs : Step host acting host') : host'.Sound := by
  refine ⟨hs.links.increasing h.links, ?_⟩
  cases hs.vars with
  | quiet hv => exact hv ▸ h.typed
  | defines csv d hp hnone hv =>
    exact hv ▸ typed_insert h.typed (Variable.ofDefinition_typed (VariableDefinition.parse_typed hp))
  | removes id hv => exact hv ▸ typed_erase h.typed id
  | stores id v w incoming changed hfind hstore hv =>
    exact hv ▸ typed_insert h.typed ((h.typed id v hfind).store hstore)
  | storesFlags id v flags hfind hv =>
    have hv' := h.typed id v hfind
    exact hv ▸ typed_insert h.typed ⟨hv'.definition, hv'.current⟩

theorem Sound.varsWithout (h : host.Sound) (link : Nat) (x : Int64) (v : Variable)
    (hv : (host.varsWithout link).find? x = some v) : v.Typed := by
  unfold Host.varsWithout at hv
  split at hv
  · exact typed_erase h.typed _ x v hv
  · exact h.typed x v hv

theorem Sound.redefine (h : host.Sound) (link : Nat) (csv : String) : (host.redefineVariable link csv).1.Sound := by
  refine ⟨(redefineVariable_links link csv).increasing h.links, ?_⟩
  have hcases := redefineVariable_cases host link csv
  generalize host.redefineVariable link csv = r at hcases ⊢
  cases hcases with
  | refused => exact h.typed
  | taken => exact h.varsWithout link
  | defined hp =>
    exact typed_insert (h.varsWithout link) (Variable.ofDefinition_typed (VariableDefinition.parse_typed hp))

theorem sound_empty : empty.Sound := ⟨Directory.increasing_empty, fun _ _ h => by cases h⟩

theorem Reachable.sound (h : host.Reachable) : host.Sound := by
  induction h with
  | empty => exact sound_empty
  | @step host op _ ih =>
    by_cases hop : ∃ link csv, op = .redefineVariable link csv
    · obtain ⟨link, csv, rfl⟩ := hop
      rw [HostOperation.after]
      exact ih.redefine link csv
    · exact ih.step (after_step host op fun link csv he => hop ⟨link, csv, he⟩)

/-! ## One variable in a step -/

/-- What becomes of one variable: nothing, or one of its parts changes and the others are told. -/
inductive Seen (host : Host) (acting : Option Nat) (host' : Host) (x : Int64) : Prop
  | unchanged : host'.vars.find? x = host.vars.find? x → Seen host acting host' x
  | identity : host.definition? x ≠ host'.definition? x → TellsAll host host' acting x .idChanged →
    Seen host acting host' x
  | value (v w : Variable) (incoming : Value) (changed : Bool) : host.vars.find? x = some v →
    host'.vars.find? x = some w → v.store? incoming = some (w, changed) →
    (changed = true → TellsAll host host' acting x .valueChange) → Seen host acting host' x
  | flags (v : Variable) (flags : VariableFlags) : host.vars.find? x = some v →
    host'.vars.find? x = some { v with flags := flags } → TellsAll host host' acting x .flagsChange →
    Seen host acting host' x

theorem Seen.of_insert {id : Int64} {w : Variable} (hv : host'.vars = host.vars.insert id w)
    (h : host'.vars.find? id = some w → Seen host acting host' id) (x : Int64) : Seen host acting host' x := by
  by_cases hx : x = id
  · subst hx
    exact h (by rw [hv, Directory.find_insert_self])
  · exact .unchanged (by rw [hv, Directory.find_insert_ne _ hx])

theorem VariableStep.seen (h : VariableStep host acting host') (x : Int64) : Seen host acting host' x := by
  cases h with
  | quiet hv => exact .unchanged (by rw [hv])
  | defines csv d hp hnone hv ht =>
    refine Seen.of_insert hv (fun hw => .identity ?_ ht) x
    simp [definition?, hnone, hw]
  | removes id hv ht =>
    by_cases hx : x = id
    · subst hx
      have hgone : host'.vars.find? x = none := by rw [hv, Directory.find_erase_self]
      cases hfind : host.vars.find? x with
      | none => exact .unchanged (hgone.trans hfind.symm)
      | some v => exact .identity (by simp [definition?, hfind, hgone]) ht
    · exact .unchanged (by rw [hv, Directory.find_erase_ne _ hx])
  | stores id v w incoming changed hfind hstore hv ht =>
    exact Seen.of_insert hv (fun hw => .value v w incoming changed hfind hw hstore ht) x
  | storesFlags id v flags hfind hv ht => exact Seen.of_insert hv (fun hw => .flags v flags hfind hw ht) x

/-! ## Changes are noticed -/

end Host

open Host

/-- The operation gives a variable a new definition. -/
def HostOperation.Redefines (host : Host) (op : HostOperation) (x : Int64) : Prop :=
  ∃ link csv, op = .redefineVariable link csv ∧ (host.redefineVariable link csv).2 = .ok x

/-- The operation makes a link that owns a variable define another one instead, or fail to. -/
def HostOperation.Moves (host : Host) (op : HostOperation) (x : Int64) : Prop :=
  ∃ link csv d, op = .redefineVariable link csv ∧ host.owned? link = some x ∧ host.vars.contains x = true ∧
    VariableDefinition.parse csv = .ok d ∧ d.id ≠ x

/-- A variable appears, disappears or gets a new definition. -/
def HostOperation.Changes (host : Host) (op : HostOperation) (x : Int64) : Prop :=
  op.Redefines host x ∨ host.definition? x ≠ (op.after host).definition? x

/-- What an operation does to a variable is told a link: that it is not the same variable any more, otherwise
that its value changed, unless it is a float, or that its flags did. -/
structure HostOperation.Noticed (host : Host) (op : HostOperation) (link : Nat) (x : Int64) : Prop where
  identity : op.Changes host x → Tells host (op.after host) link .idChanged
  value : ¬op.Changes host x → (∀ d, host.definition? x = some d → d.type ≠ .float) →
    host.current? x ≠ (op.after host).current? x → Tells host (op.after host) link .valueChange
  flags : ¬op.Changes host x → host.flags? x ≠ (op.after host).flags? x →
    Tells host (op.after host) link .flagsChange

namespace HostOperation

variable {host : Host} {op : HostOperation} {link acting : Nat} {x : Int64} {csv : String}

theorem Noticed.of_seen (hsound : host.Sound) (hlink : host.target? link = some (.variable x))
    (hother : op.link? ≠ some link) (hop : ¬op.Redefines host x) (h : Seen host op.link? (op.after host) x) :
    op.Noticed host link x := by
  have hsame : host.definition? x = (op.after host).definition? x → ¬op.Changes host x :=
    fun he hc => hc.elim hop fun hne => hne he
  cases h with
  | unchanged hfind =>
    have hdef : host.definition? x = (op.after host).definition? x := by rw [definition?, definition?, hfind]
    refine ⟨fun hc => absurd hc (hsame hdef), fun _ _ hne => absurd ?_ hne, fun _ hne => absurd ?_ hne⟩
    · rw [current?, current?, hfind]
    · rw [flags?, flags?, hfind]
  | identity hne ht =>
    exact ⟨fun _ => ht link hlink hother, fun hc => absurd (.inr hne) hc, fun hc => absurd (.inr hne) hc⟩
  | value v w incoming changed hv hw hstore ht =>
    obtain ⟨hdef, hflags, htype, hkept⟩ := Variable.store_eq_some hstore
    refine ⟨fun hc => absurd hc (hsame ?_), fun _ hfloat hne => ?_, fun _ hne => absurd ?_ hne⟩
    · rw [definition?, definition?, hv, hw, Option.map_some, Option.map_some, hdef]
    · cases changed with
      | true => exact ht rfl link hlink hother
      | false =>
        -- what is stored without an event equals the old value, which says that it is the same but for floats
        obtain ⟨hsametype, hequal⟩ := hkept rfl
        have hnot : v.current.type ≠ .float := by
          rw [(hsound.typed x v hv).current]
          exact hfloat v.definition (by rw [definition?, hv]; rfl)
        refine absurd ?_ hne
        rw [current?, current?, hv, hw, Option.map_some, Option.map_some, Value.eq_of_equals hsametype hnot hequal]
    · rw [flags?, flags?, hv, hw, Option.map_some, Option.map_some, hflags]
  | flags v flags hv hw ht =>
    refine ⟨fun hc => absurd hc (hsame ?_), fun _ _ hne => absurd ?_ hne, fun _ _ => ht link hlink hother⟩
    · rw [definition?, definition?, hv, hw]; rfl
    · rw [current?, current?, hv, hw]; rfl

/-- Only the variable that the link owns is missing. -/
theorem find_varsWithout (h : host.owned? link = some x → host.vars.contains x = false) :
    (host.varsWithout link).find? x = host.vars.find? x := by
  unfold varsWithout
  split
  · rename_i id ho
    by_cases hx : x = id
    · subst hx
      have hnone : host.vars.find? x = none := by simpa [Directory.contains] using h ho
      rw [Directory.find_erase_self, hnone]
    · rw [Directory.find_erase_ne _ hx]
  · rfl

theorem find_redefined {acting : Nat} {d : VariableDefinition} {l : HostLink}
    (hp : VariableDefinition.parse csv = .ok d) (hl : host.links.find? acting = some l) (hx : x ≠ d.id) :
    (host.redefineVariable acting csv).1.vars.find? x = (host.varsWithout acting).find? x := by
  rw [redefineVariable_eq hp hl]
  split
  · rfl
  · exact Directory.find_insert_ne _ hx _

/-- A link stays attached when another one is attached elsewhere. -/
theorem target_insert {target : LinkTarget} {l : HostLink} (host : Host) {vars : Directory Int64 Variable}
    (hne : link ≠ acting) (h : host.target? link = some target) :
    ({ host with vars := vars, links := host.links.insert acting l } : Host).target? link = some target := by
  rw [← h]
  exact congrArg (Option.map HostLink.target) (Directory.find_insert_ne host.links hne l)

/-- A new definition reaches all that are attached to the new number. -/
theorem redefined_tells (h : (host.redefineVariable acting csv).2 = .ok x) :
    TellsAll host (host.redefineVariable acting csv).1 (some acting) x .idChanged := by
  have hcases := redefineVariable_cases host acting csv
  generalize host.redefineVariable acting csv = r at h hcases ⊢
  cases hcases with
  | refused => cases h
  | taken => cases h
  | @defined d _ _ _ _ =>
    obtain rfl : d.id = x := Except.ok.inj h
    intro link hlink hother
    have hne : link ≠ acting := fun h => hother (congrArg some h.symm)
    exact tells_emit (target_insert host hne hlink) (by simp)

theorem redefined_cases (host : Host) (acting : Nat) (csv : String) (x : Int64) :
    (¬Redefines host (.redefineVariable acting csv) x ∧
        (host.redefineVariable acting csv).1.vars.find? x = host.vars.find? x) ∨
      (Redefines host (.redefineVariable acting csv) x ∧
        TellsAll host (host.redefineVariable acting csv).1 (some acting) x .idChanged) ∨
      Moves host (.redefineVariable acting csv) x := by
  by_cases hok : (host.redefineVariable acting csv).2 = .ok x
  · exact .inr (.inl ⟨⟨acting, csv, rfl, hok⟩, redefined_tells hok⟩)
  by_cases hmoves : Moves host (.redefineVariable acting csv) x
  · exact .inr (.inr hmoves)
  have hnot : ¬Redefines host (.redefineVariable acting csv) x := by
    rintro ⟨link, line, he, h⟩
    cases he
    exact hok h
  refine .inl ⟨hnot, ?_⟩
  cases hp : VariableDefinition.parse csv with
  | error e => rw [redefineVariable_unparsed hp]
  | ok d =>
    cases hl : host.links.find? acting with
    | none => rw [redefineVariable_unlinked hp hl]
    | some l =>
      by_cases hx : x = d.id
      · subst hx
        rw [redefineVariable_eq hp hl] at hok ⊢
        split at hok
        · -- it is taken after the owned variable has gone, so the link does not own it
          rename_i htaken
          rw [if_pos htaken]
          refine find_varsWithout fun howned => ?_
          rw [varsWithout, howned, Directory.contains, Directory.find_erase_self] at htaken
          cases htaken
        · exact absurd rfl hok
      · rw [find_redefined hp hl hx]
        refine find_varsWithout fun howned => ?_
        refine Bool.eq_false_iff.mpr fun hpresent => hmoves ?_
        exact ⟨acting, csv, d, rfl, howned, hpresent, hp, Ne.symm hx⟩

/-- A variable whose link defines another one is gone, and who is attached to it hears nothing of that. -/
theorem Moves.unnoticed (hsound : host.Sound) (hlink : host.target? link = some (.variable x))
    (hother : op.link? ≠ some link) (h : op.Moves host x) : ¬op.Noticed host link x := by
  obtain ⟨acting, csv, d, rfl, howned, hpresent, hp, hid⟩ := h
  have hl := find_of_owned howned
  have hne : link ≠ acting := fun h => hother (congrArg some h.symm)
  intro hn
  have hgone : (host.redefineVariable acting csv).1.vars.find? x = none := by
    rw [find_redefined hp hl (Ne.symm hid), varsWithout, howned, Directory.find_erase_self]
  have hchanges : Changes host (.redefineVariable acting csv) x := by
    refine .inr ?_
    obtain ⟨v, hv⟩ := Option.isSome_iff_exists.mp hpresent
    rw [after, definition?, definition?, hv, hgone]
    simp
  have htold := hn.identity hchanges
  rw [after, redefineVariable_eq hp hl] at htold
  split at htold
  · -- the new number is taken, and nobody is told anything
    obtain ⟨new, hnew, hmem⟩ := htold
    rw [List.self_eq_append_right.mp hnew] at hmem
    cases hmem
  · -- those at the new number are told, and nobody else
    have hother : LinkTarget.variable x ≠ .variable d.id := fun he => hid (LinkTarget.variable.inj he).symm
    exact not_tells_emit (hsound.links.insert _ _) (target_insert host hne hlink) hother htold

/-- After any operation whatever happened to a variable has been told a link that is attached to it and did
not act itself, unless the variable had to make room for another one of its link. -/
theorem changes_noticed_iff (host : Host) (hreachable : host.Reachable) (op : HostOperation) (link : Nat) (x : Int64)
    (hlink : host.target? link = some (.variable x)) (hother : op.link? ≠ some link) :
    op.Noticed host link x ↔ ¬op.Moves host x := by
  refine ⟨fun hn hm => hm.unnoticed hreachable.sound hlink hother hn, fun hm => ?_⟩
  by_cases hop : ∃ acting csv, op = .redefineVariable acting csv
  · obtain ⟨acting, csv, rfl⟩ := hop
    rcases redefined_cases host acting csv x with ⟨hnot, hfind⟩ | ⟨hyes, htell⟩ | hmoves
    · refine Noticed.of_seen hreachable.sound hlink hother hnot (.unchanged ?_)
      rwa [after]
    · have htold : Tells host (after host (.redefineVariable acting csv)) link .idChanged := by
        rw [after]
        exact htell link hlink hother
      exact ⟨fun _ => htold, fun hc => absurd (.inl hyes) hc, fun hc => absurd (.inl hyes) hc⟩
    · exact absurd hmoves hm
  · have hnot : ¬op.Redefines host x := by
      rintro ⟨acting, csv, he, -⟩
      exact hop ⟨acting, csv, he⟩
    have hstep : Step host op.link? (op.after host) := after_step host op fun acting csv he => hop ⟨acting, csv, he⟩
    exact Noticed.of_seen hreachable.sound hlink hother hnot (hstep.vars.seen x)

/-- The second link waits at the variable of the first one, which then defines another variable. -/
theorem moved_variable_unnoticed :
    let host := after (after .empty (.exportVariable "2,b")) (.importVariable 2)
    let op := redefineVariable 1 "3,c"
    host.Reachable ∧ host.target? 2 = some (.variable 2) ∧ op.link? ≠ some 2 ∧ op.Moves host 2 ∧
      ¬op.Noticed host 2 2 ∧ (op.after host).vars.contains 2 = false ∧
      (op.after host).queue = host.queue ++ [⟨1, .idChanged⟩] := by
  intro host op
  have hreachable : host.Reachable := .step _ (.step _ .empty)
  have hlink : host.target? 2 = some (.variable 2) := by decide +kernel
  have hother : op.link? ≠ some 2 := by decide
  have hmoves : op.Moves host 2 := by
    have hid : (VariableDefinition.parse "3,c").toOption.map (·.id) = some 3 := by decide +kernel
    obtain ⟨d, hd, hd3⟩ := Option.map_eq_some_iff.mp hid
    refine ⟨1, "3,c", d, rfl, by decide +kernel, by decide +kernel, ?_, by rw [hd3]; decide⟩
    cases hp : VariableDefinition.parse "3,c" with
    | error e =>
      rw [hp] at hd
      cases hd
    | ok d' =>
      rw [hp] at hd
      exact congrArg Except.ok (Option.some_inj.mp hd)
  have hunnoticed : ¬op.Noticed host 2 2 := fun hn =>
    (changes_noticed_iff host hreachable op 2 2 hlink hother).mp hn hmoves
  exact ⟨hreachable, hlink, hother, hmoves, hunnoticed, by decide +kernel, by decide +kernel⟩

end HostOperation

end HostScript
