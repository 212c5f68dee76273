import HostScript.Host.Host
import HostScript.Proofs.Directories
/-!
# What is done to a host

Clients and the application change a host by operations, and each of them tells whether it failed. A failed
operation leaves the host as it was, but for one: a link that defines its variable anew loses the one it
owned when the new number belongs to another variable.
-/

set_option autoImplicit false

namespace HostScript

/-- What clients and the application do to a host. -/
inductive HostOperation where
  | defineVariable (csv : String)
  | exportVariable (csv : String)
  | importVariable (id : Int64)
  | removeVariable (id : Int64)
  | relinkVariable (link : Nat) (id : Int64)
  | redefineVariable (link : Nat) (csv : String)
  | setVariable (link : Nat) (v : Value) (skipSelf : Bool)
  | setVariableValue (id : Int64) (v : Value)
  | updateFlags (link : Nat) (flags : VariableFlags) (skipSelf : Bool)
  | setVariableFlags (id : Int64) (flags : VariableFlags)
  | defineResult (csv : String)
  | linkResult (id : Int64)
  | relinkResult (link : Nat) (id : Int64)
  | commitResult (id : Int64) (samples : List Int64)
  | clearResult (id : Int64)
  | requestRange (link : Nat) (offset size : Int64)
  | unlink (link : Nat)
  | takeEvents

namespace HostOperation

/-- The host after an operation. -/
def after (host : Host) : HostOperation → Host
  | defineVariable csv => (host.defineVariable csv).1
  | exportVariable csv => (host.exportVariable csv).1
  | importVariable id => (host.importVariable id).1
  | removeVariable id => (host.removeVariable id).1
  | relinkVariable link id => (host.relinkVariable link id).1
  | redefineVariable link csv => (host.redefineVariable link csv).1
  | setVariable link v skipSelf => (host.setVariable link v skipSelf).1
  | setVariableValue id v => (host.setVariableValue id v).1
  | updateFlags link flags skipSelf => (host.updateFlags link flags skipSelf).1
  | setVariableFlags id flags => (host.setVariableFlags id flags).1
  | defineResult csv => (host.defineResult csv).1
  | linkResult id => (host.linkResult id).1
  | relinkResult link id => (host.relinkResult link id).1
  | commitResult id samples => (host.commitResult id samples).1
  | clearResult id => (host.clearResult id).1
  | requestRange link offset size => (host.requestRange link offset size).1
  | unlink link => host.unlink link
  | takeEvents => host.takeEvents.1

/-- Whether an operation reports that it failed: by an error, by giving nothing or by saying so. -/
def fails (host : Host) : HostOperation → Bool
  | defineVariable csv => !(host.defineVariable csv).2.isOk
  | exportVariable csv => !(host.exportVariable csv).2.isOk
  | removeVariable id => !(host.removeVariable id).2
  | relinkVariable link id => !(host.relinkVariable link id).2
  | redefineVariable link csv => !(host.redefineVariable link csv).2.isOk
  | setVariable link v skipSelf => (host.setVariable link v skipSelf).2.isNone
  | setVariableValue id v => (host.setVariableValue id v).2.isNone
  | updateFlags link flags skipSelf => !(host.updateFlags link flags skipSelf).2
  | setVariableFlags id flags => !(host.setVariableFlags id flags).2
  | defineResult csv => !(host.defineResult csv).2.isOk
  | relinkResult link id => !(host.relinkResult link id).2
  | commitResult id samples => !(host.commitResult id samples).2
  | clearResult id => !(host.clearResult id).2
  | requestRange link offset size => !(host.requestRange link offset size).2
  | importVariable _ | linkResult _ | unlink _ | takeEvents => false

end HostOperation

/-- The hosts that operations lead to. -/
inductive Host.Reachable : Host → Prop
  | empty : Reachable .empty
  | step {host : Host} (op : HostOperation) : Reachable host → Reachable (op.after host)

/-! ## Failures -/

namespace Host

variable {host : Host} {id : Int64} {link : Nat} {csv : String} {v : Value} {flags : VariableFlags}
  {except : Option Nat}

theorem insertVariable_fails {d : VariableDefinition} {e : DefinitionError}
    (h : (host.insertVariable d).2 = .error e) : (host.insertVariable d).1 = host := by
  unfold insertVariable at h ⊢
  split at h
  · rw [if_pos ‹_›]
  · cases h

theorem defineVariable_fails {e : DefinitionError} (h : (host.defineVariable csv).2 = .error e) :
    (host.defineVariable csv).1 = host := by
  unfold defineVariable at h ⊢
  cases hp : VariableDefinition.parse csv with
  | error _ => rfl
  | ok d =>
    rw [hp] at h
    exact insertVariable_fails h

theorem exportVariable_fails {e : DefinitionError} (h : (host.exportVariable csv).2 = .error e) :
    (host.exportVariable csv).1 = host := by
  unfold exportVariable at h ⊢
  split at h
  · rename_i host' e' hd
    have he : (host.defineVariable csv).2 = .error e' := congrArg Prod.snd hd
    exact (congrArg Prod.fst hd).symm.trans (defineVariable_fails he)
  · cases h

theorem removeVariable_fails (h : (host.removeVariable id).2 = false) : (host.removeVariable id).1 = host := by
  unfold removeVariable at h ⊢
  split at h
  · cases h
  · rw [if_neg ‹_›]

theorem relinkVariable_fails (h : (host.relinkVariable link id).2 = false) :
    (host.relinkVariable link id).1 = host := by
  unfold relinkVariable at h ⊢
  cases hl : host.links.find? link with
  | none => rfl
  | some old =>
    rw [hl] at h
    cases h

theorem storeVariable_fails (h : (host.storeVariable id v except).2 = none) :
    (host.storeVariable id v except).1 = host := by
  unfold storeVariable at h ⊢
  cases hs : (host.vars.find? id).bind (·.store? v) with
  | none => rfl
  | some r =>
    rw [hs] at h
    cases h

theorem setVariable_fails {skipSelf : Bool} (h : (host.setVariable link v skipSelf).2 = none) :
    (host.setVariable link v skipSelf).1 = host := by
  unfold setVariable at h ⊢
  cases hl : host.links.find? link with
  | none => rfl
  | some l =>
    rw [hl] at h
    dsimp only at h ⊢
    rcases ht : l.target with id | id
    · simp only [ht] at h ⊢
      split
      · rfl
      · rw [if_neg ‹_›] at h
        exact storeVariable_fails h
    · rfl

theorem storeFlags_fails (h : (host.storeFlags id flags except).2 = false) :
    (host.storeFlags id flags except).1 = host := by
  unfold storeFlags at h ⊢
  cases hv : host.vars.find? id with
  | none => rfl
  | some v =>
    simp only [hv] at h ⊢
    split
    · rfl
    · rw [if_neg ‹_›] at h
      cases h

theorem updateFlags_fails {skipSelf : Bool} (h : (host.updateFlags link flags skipSelf).2 = false) :
    (host.updateFlags link flags skipSelf).1 = host := by
  unfold updateFlags at h ⊢
  split at h
  · exact storeFlags_fails h
  · rfl

theorem defineResult_fails {e : DefinitionError} (h : (host.defineResult csv).2 = .error e) :
    (host.defineResult csv).1 = host := by
  unfold defineResult at h ⊢
  cases hp : ResultDefinition.parse csv with
  | error _ => rfl
  | ok d =>
    simp only [hp] at h ⊢
    split
    · rfl
    · rw [if_neg ‹_›] at h
      cases h

theorem relinkResult_fails (h : (host.relinkResult link id).2 = false) : (host.relinkResult link id).1 = host := by
  unfold relinkResult at h ⊢
  cases hl : host.links.find? link with
  | none => rfl
  | some l =>
    rw [hl] at h
    cases h

theorem commitResult_fails {samples : List Int64} (h : (host.commitResult id samples).2 = false) :
    (host.commitResult id samples).1 = host := by
  unfold commitResult at h ⊢
  cases hr : host.results.find? id with
  | none => rfl
  | some r =>
    rw [hr] at h
    cases h

theorem clearResult_fails (h : (host.clearResult id).2 = false) : (host.clearResult id).1 = host := by
  unfold clearResult at h ⊢
  cases hr : host.results.find? id with
  | none => rfl
  | some r =>
    rw [hr] at h
    cases h

theorem requestRange_fails {offset size : Int64} (h : (host.requestRange link offset size).2 = false) :
    (host.requestRange link offset size).1 = host := by
  unfold requestRange at h ⊢
  split
  · rfl
  · rw [if_neg ‹_›] at h
    split at h
    · rename_i id _
      cases hr : host.results.find? id with
      | none => rfl
      | some r =>
        simp only [hr] at h ⊢
        split
        · rfl
        · rw [if_neg ‹_›] at h
          cases h
    · rfl

/-! ## Defining a variable anew -/

/-- The variable that a link owns. -/
def owned? (host : Host) (link : Nat) : Option Int64 :=
  match host.links.find? link with
  | some ⟨.variable id, true⟩ => some id
  | _ => none

/-- The variables but for the one that a link owns. -/
def varsWithout (host : Host) (link : Nat) : Directory Int64 Variable :=
  match host.owned? link with
  | some id => host.vars.erase id
  | none => host.vars

/-- The owned variable goes first, and comes back only in its new form. -/
theorem redefineVariable_unparsed {e : DefinitionError} (hp : VariableDefinition.parse csv = .error e) :
    host.redefineVariable link csv = (host, .error e) := by
  unfold redefineVariable
  rw [hp]

theorem redefineVariable_unlinked {d : VariableDefinition} (hp : VariableDefinition.parse csv = .ok d)
    (hl : host.links.find? link = none) :
    host.redefineVariable link csv = (host, .error (.badId ("link " ++ toString link))) := by
  unfold redefineVariable
  rw [hp]
  dsimp only
  rw [hl]

theorem redefineVariable_eq {d : VariableDefinition} {l : HostLink} (hp : VariableDefinition.parse csv = .ok d)
    (hl : host.links.find? link = some l) :
    host.redefineVariable link csv =
      if (host.varsWithout link).contains d.id then
        ({ host with vars := host.varsWithout link }, .error (.duplicate d.id))
      else
        (emit { host with
            vars := (host.varsWithout link).insert d.id (.ofDefinition d)
            links := host.links.insert link ⟨.variable d.id, true⟩ } (.variable d.id) .idChanged none, .ok d.id) := by
  unfold redefineVariable
  rw [hp]
  dsimp only
  rw [hl]
  obtain ⟨_ | _, _ | _⟩ := l <;> simp [varsWithout, owned?, hl]

/-- How defining the variable of a link anew comes out: the line or the link is refused, the number is taken even
without the variable that goes first, or the link owns what the line defines. -/
inductive Redefinition (host : Host) (link : Nat) (csv : String) : Host × Except DefinitionError Int64 → Prop
  | refused (e : DefinitionError) : (VariableDefinition.parse csv).isOk = false ∨ host.links.find? link = none →
    Redefinition host link csv (host, .error e)
  | taken {d : VariableDefinition} {l : HostLink} : VariableDefinition.parse csv = .ok d →
    host.links.find? link = some l → (host.varsWithout link).contains d.id = true →
      Redefinition host link csv ({ host with vars := host.varsWithout link }, .error (.duplicate d.id))
  | defined {d : VariableDefinition} {l : HostLink} : VariableDefinition.parse csv = .ok d →
    host.links.find? link = some l → ¬(host.varsWithout link).contains d.id = true →
      Redefinition host link csv (emit { host with
        vars := (host.varsWithout link).insert d.id (.ofDefinition d)
        links := host.links.insert link ⟨.variable d.id, true⟩ } (.variable d.id) .idChanged none, .ok d.id)

theorem redefineVariable_cases (host : Host) (link : Nat) (csv : String) :
    Redefinition host link csv (host.redefineVariable link csv) := by
  cases hp : VariableDefinition.parse csv with
  | error e =>
    rw [redefineVariable_unparsed hp]
    exact .refused e (.inl (by rw [hp]; rfl))
  | ok d =>
    cases hl : host.links.find? link with
    | none =>
      rw [redefineVariable_unlinked hp hl]
      exact .refused _ (.inr hl)
    | some l =>
      rw [redefineVariable_eq hp hl]
      split
      · exact .taken hp hl ‹_›
      · exact .defined hp hl ‹_›

/-- A link is to define its variable anew, under a number that another variable has. -/
structure Collides (host : Host) (link : Nat) (csv : String) (previous : Int64) (d : VariableDefinition) : Prop where
  owned : host.owned? link = some previous
  present : host.vars.contains previous = true
  parsed : VariableDefinition.parse csv = .ok d
  other : d.id ≠ previous
  taken : host.vars.contains d.id = true

theorem find_of_owned (h : host.owned? link = some id) : host.links.find? link = some ⟨.variable id, true⟩ := by
  unfold owned? at h
  split at h
  · rename_i hl
    rw [hl, Option.some_inj.mp h]
  · cases h

/-- What failing to define a variable anew leaves is the host, without the variable that was owned. -/
theorem redefineVariable_fails {e : DefinitionError} (h : (host.redefineVariable link csv).2 = .error e) :
    (host.redefineVariable link csv).1 = host ∨
      ∃ previous d, host.Collides link csv previous d ∧
        (host.redefineVariable link csv).1 = { host with vars := host.vars.erase previous } := by
  have hcases := redefineVariable_cases host link csv
  generalize host.redefineVariable link csv = r at h hcases ⊢
  cases hcases with
  | refused => exact .inl rfl
  | @taken d l hp hl htaken =>
    cases ho : host.owned? link with
    | none => exact .inl (by simp [varsWithout, ho])
    | some previous =>
      have hvars : host.varsWithout link = host.vars.erase previous := by rw [varsWithout, ho]
      rw [hvars] at htaken ⊢
      -- the number is still taken without the owned variable, so it is another one's
      have hother : d.id ≠ previous := by
        rintro rfl
        simp [Directory.contains] at htaken
      have hid : host.vars.contains d.id = true := by
        rwa [Directory.contains, Directory.find_erase_ne _ hother] at htaken
      cases hc : host.vars.find? previous with
      | none => exact .inl (by rw [Directory.erase_eq_self hc])
      | some v => exact .inr ⟨previous, d, ⟨ho, by rw [Directory.contains, hc]; rfl, hp, hother, hid⟩, rfl⟩
  | defined => cases h

/-- A collision makes the link lose its variable, and fails. -/
theorem Collides.lost {previous : Int64} {d : VariableDefinition} (h : host.Collides link csv previous d) :
    host.redefineVariable link csv =
      ({ host with vars := host.vars.erase previous }, .error (.duplicate d.id)) := by
  have htaken : (host.varsWithout link).contains d.id = true := by
    rw [varsWithout, h.owned, Directory.contains, Directory.find_erase_ne _ h.other]
    exact h.taken
  rw [redefineVariable_eq h.parsed (find_of_owned h.owned), if_pos htaken, varsWithout, h.owned]

theorem erase_ne_self {id : Int64} (h : host.vars.contains id = true) :
    ({ host with vars := host.vars.erase id } : Host) ≠ host := by
  intro he
  have hfind : (host.vars.erase id).find? id = host.vars.find? id := congrArg (fun host => host.vars.find? id) he
  rw [Directory.contains, ← hfind, Directory.find_erase_self] at h
  cases h

end Host

namespace HostOperation

open Host

variable {host : Host}

theorem error_of_not_ok {α : Type} {r : Except DefinitionError α} (h : (!r.isOk) = true) : ∃ e, r = .error e := by
  cases r with
  | error e => exact ⟨e, rfl⟩
  | ok a => cases h

/-- The operation defines the variable of a link anew, under a number that another variable has. -/
def Collides (host : Host) (op : HostOperation) : Prop :=
  ∃ link csv previous d, op = .redefineVariable link csv ∧ host.Collides link csv previous d

/-- Only a collision changes anything where an operation fails. -/
theorem fails_cases {op : HostOperation} (h : op.fails host = true) : op.after host = host ∨ op.Collides host := by
  cases op with
  | redefineVariable link csv =>
    rw [fails] at h
    rw [after]
    obtain ⟨e, he⟩ := error_of_not_ok h
    exact (redefineVariable_fails he).imp_right fun ⟨previous, d, hd, _⟩ => ⟨link, csv, previous, d, rfl, hd⟩
  | defineVariable csv =>
    rw [fails] at h
    obtain ⟨e, he⟩ := error_of_not_ok h
    exact .inl (defineVariable_fails he)
  | exportVariable csv =>
    rw [fails] at h
    obtain ⟨e, he⟩ := error_of_not_ok h
    exact .inl (exportVariable_fails he)
  | defineResult csv =>
    rw [fails] at h
    obtain ⟨e, he⟩ := error_of_not_ok h
    exact .inl (defineResult_fails he)
  | removeVariable id => exact .inl (removeVariable_fails ((Bool.not_eq_true' _).mp h))
  | relinkVariable link id => exact .inl (relinkVariable_fails ((Bool.not_eq_true' _).mp h))
  | setVariable link v skipSelf => exact .inl (setVariable_fails (Option.isNone_iff_eq_none.mp h))
  | setVariableValue id v => exact .inl (storeVariable_fails (Option.isNone_iff_eq_none.mp h))
  | updateFlags link flags skipSelf => exact .inl (updateFlags_fails ((Bool.not_eq_true' _).mp h))
  | setVariableFlags id flags => exact .inl (storeFlags_fails ((Bool.not_eq_true' _).mp h))
  | relinkResult link id => exact .inl (relinkResult_fails ((Bool.not_eq_true' _).mp h))
  | commitResult id samples => exact .inl (commitResult_fails ((Bool.not_eq_true' _).mp h))
  | clearResult id => exact .inl (clearResult_fails ((Bool.not_eq_true' _).mp h))
  | requestRange link offset size => exact .inl (requestRange_fails ((Bool.not_eq_true' _).mp h))
  | importVariable id => cases h
  | linkResult id => cases h
  | unlink link => cases h
  | takeEvents => cases h

/-- A collision always takes the variable away. -/
theorem Collides.changes {op : HostOperation} (h : op.Collides host) : op.after host ≠ host := by
  obtain ⟨link, csv, previous, d, rfl, hd⟩ := h
  rw [after, hd.lost]
  exact erase_ne_self hd.present

/-- An operation that fails leaves variables, results, links, requests and events exactly as they were, in
any host, unless it defines the variable of a link anew under a number that another variable has. -/
theorem failed_unchanged_iff (host : Host) (op : HostOperation) (h : op.fails host = true) :
    op.after host = host ↔ ¬op.Collides host :=
  ⟨fun he hc => hc.changes he, (fails_cases h).resolve_right⟩

/-- Of two variables the second belongs to the first link, which is to define it anew as the first one. -/
theorem failed_redefinition_changes :
    let host := after (after .empty (.defineVariable "1,a")) (.exportVariable "2,b")
    let op := redefineVariable 1 "1,c"
    op.fails host = true ∧ op.Collides host ∧ op.after host ≠ host ∧
      host.vars.contains 2 = true ∧ (op.after host).vars.contains 2 = false := by
  intro host op
  have hfails : op.fails host = true := by decide +kernel
  have hbefore : host.vars.contains 2 = true := by decide +kernel
  have hafter : (op.after host).vars.contains 2 = false := by decide +kernel
  have hchanged : op.after host ≠ host := by
    intro he
    rw [he, hbefore] at hafter
    cases hafter
  refine ⟨hfails, ?_, hchanged, hbefore, hafter⟩
  exact Classical.byContradiction fun hc => hchanged ((failed_unchanged_iff host op hfails).mpr hc)

end HostOperation

end HostScript
