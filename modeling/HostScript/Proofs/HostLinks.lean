import HostScript.Proofs.HostSteps
/-!
# Who is attached to what

An operation defines or takes away a variable, and it makes a link, attaches one elsewhere or removes one. What
it does of that is read off the host before it. The variables and the links of the host after it follow from
that alone.
-/

set_option autoImplicit false

namespace HostScript

/-- The link is attached to a variable, and not to a result. -/
def LinkTarget.isVariable : LinkTarget → Bool
  | .variable _ => true
  | .result _ => false

/-- The variable that a link owns. -/
def HostLink.owned? (l : HostLink) : Option Int64 :=
  match l with
  | ⟨.variable id, true⟩ => some id
  | _ => none

namespace Host

variable {host : Host} {link : Nat}

theorem owned_eq (host : Host) (link : Nat) : host.owned? link = (host.links.find? link).bind HostLink.owned? := by
  unfold owned?
  rcases host.links.find? link with _ | ⟨_ | _, _ | _⟩ <;> rfl

/-- Links are numbered as they are made. -/
def Numbered (host : Host) : Prop := ∀ link l, host.links.find? link = some l → link ≤ host.lastLink

theorem Numbered.fresh (h : host.Numbered) : host.links.find? (host.lastLink + 1) = none := by
  cases hl : host.links.find? (host.lastLink + 1) with
  | none => rfl
  | some l => exact absurd (h _ l hl) (Nat.not_succ_le_self _)

end Host

namespace HostOperation

open Host

/-- The variable that an operation defines, with the link through which it is defined. The application defines
variables without one. -/
def defines? (host : Host) : HostOperation → Option (Int64 × Option Nat)
  | defineVariable csv => (host.defineVariable csv).2.toOption.map fun id => (id, none)
  | exportVariable csv => (host.defineVariable csv).2.toOption.map fun id => (id, some (host.lastLink + 1))
  | redefineVariable link csv => (host.redefineVariable link csv).2.toOption.map fun id => (id, some link)
  | _ => none

/-- The number whose variable an operation takes away. -/
def frees? (host : Host) : HostOperation → Option Int64
  | removeVariable id => some id
  | relinkVariable link id => (host.owned? link).filter (· ≠ id)
  | redefineVariable link csv => if (VariableDefinition.parse csv).isOk then host.owned? link else none
  | unlink link => host.owned? link
  | _ => none

/-- The link that an operation makes, attaches or removes, with what becomes of it. -/
def attaches? (host : Host) : HostOperation → Option (Nat × Option HostLink)
  | exportVariable csv =>
    (host.defineVariable csv).2.toOption.map fun id => (host.lastLink + 1, some ⟨.variable id, true⟩)
  | importVariable id => some (host.lastLink + 1, some ⟨.variable id, false⟩)
  | linkResult id => some (host.lastLink + 1, some ⟨.result id, false⟩)
  | relinkVariable link id => (host.links.find? link).map fun _ => (link, some ⟨.variable id, false⟩)
  | redefineVariable link csv =>
    (host.redefineVariable link csv).2.toOption.map fun id => (link, some ⟨.variable id, true⟩)
  | relinkResult link id => (host.links.find? link).map fun l => (link, some { l with target := .result id })
  | unlink link => some (link, none)
  | _ => none

end HostOperation

namespace Host

variable {host host' : Host} {link : Nat} {csv : String} {x : Int64}

/-! ## Variables -/

theorem contains_insert (vars : Directory Int64 Variable) (id x : Int64) (v : Variable) :
    (vars.insert id v).contains x = true ↔ x = id ∨ vars.contains x = true := by
  rw [Directory.contains, Directory.find_insert]
  split <;> simp [Directory.contains, *]

theorem contains_erase (vars : Directory Int64 Variable) (id x : Int64) :
    (vars.erase id).contains x = true ↔ x ≠ id ∧ vars.contains x = true := by
  by_cases hx : x = id
  · simp [hx, Directory.contains]
  · simp [hx, Directory.contains, Directory.find_erase_ne]

theorem insertVariable_contains (d : VariableDefinition) :
    (host.insertVariable d).1.vars.contains x = true ↔
      (host.insertVariable d).2 = .ok x ∨ host.vars.contains x = true := by
  unfold insertVariable
  split
  · simp
  · change (host.vars.insert d.id (.ofDefinition d)).contains x = true ↔ _
    rw [contains_insert, Except.ok.injEq, eq_comm]

theorem defineVariable_contains (csv : String) :
    (host.defineVariable csv).1.vars.contains x = true ↔
      (host.defineVariable csv).2 = .ok x ∨ host.vars.contains x = true := by
  unfold defineVariable
  cases VariableDefinition.parse csv with
  | error e => simp
  | ok d => exact insertVariable_contains d

theorem defineVariable_fresh (h : (host.defineVariable csv).2 = .ok x) : host.vars.contains x = false := by
  unfold defineVariable at h
  split at h
  · cases h
  · unfold insertVariable at h
    split at h
    · cases h
    · rename_i hfree
      exact Except.ok.inj h ▸ Bool.eq_false_iff.mpr hfree

theorem exportVariable_vars (csv : String) : (host.exportVariable csv).1.vars = (host.defineVariable csv).1.vars := by
  unfold exportVariable
  rcases host.defineVariable csv with ⟨host', e | id⟩
  · rfl
  · rfl

theorem removeVariable_contains (id : Int64) :
    (host.removeVariable id).1.vars.contains x = true ↔ host.vars.contains x = true ∧ id ≠ x := by
  unfold removeVariable
  split
  · change (host.vars.erase id).contains x = true ↔ _
    rw [contains_erase, and_comm, ne_comm]
  · rename_i hid
    refine ⟨fun hx => ⟨hx, ?_⟩, And.left⟩
    rintro rfl
    exact hid hx

theorem varsWithout_contains (link : Nat) :
    (host.varsWithout link).contains x = true ↔ host.vars.contains x = true ∧ host.owned? link ≠ some x := by
  unfold varsWithout
  cases host.owned? link with
  | none => simp
  | some id => rw [contains_erase, and_comm, ne_comm, Ne, Ne, Option.some_inj]

theorem relinkVariable_contains (link : Nat) (id : Int64) :
    (host.relinkVariable link id).1.vars.contains x = true ↔
      host.vars.contains x = true ∧ (host.owned? link).filter (· ≠ id) ≠ some x := by
  unfold relinkVariable
  rw [owned_eq]
  rcases host.links.find? link with _ | ⟨previous | _, _ | _⟩
  · simp
  · simp [HostLink.owned?, emitTo]
  · by_cases hp : previous = id
    · simp [HostLink.owned?, emitTo, hp, Option.filter_some]
    · simp only [hp, Bool.true_and, ne_eq, not_false_eq_true, decide_true, if_true]
      change (host.vars.erase previous).contains x = true ↔ _
      rw [contains_erase, and_comm, ne_comm]
      simp [HostLink.owned?, hp, Option.filter_some]
  · simp [HostLink.owned?, emitTo]
  · simp [HostLink.owned?, emitTo]

theorem redefineVariable_contains (link : Nat) (csv : String) :
    (host.redefineVariable link csv).1.vars.contains x = true ↔
      (host.redefineVariable link csv).2 = .ok x ∨ host.vars.contains x = true ∧
        (if (VariableDefinition.parse csv).isOk then host.owned? link else none) ≠ some x := by
  cases hp : VariableDefinition.parse csv with
  | error e => simp [redefineVariable_unparsed hp, Except.isOk, Except.toBool]
  | ok d =>
    cases hl : host.links.find? link with
    | none => simp [redefineVariable_unlinked hp hl, owned_eq, hl]
    | some l =>
      rw [redefineVariable_eq hp hl]
      simp only [Except.isOk, Except.toBool, if_true]
      split
      · simp [varsWithout_contains]
      · change ((host.varsWithout link).insert d.id (.ofDefinition d)).contains x = true ↔ _
        rw [contains_insert, varsWithout_contains, Except.ok.injEq, eq_comm]

/-- A definition that is accepted takes the place of what the link owned. -/
theorem redefined_contains {id : Int64} (h : (host.redefineVariable link csv).2 = .ok id) :
    (host.redefineVariable link csv).1.vars.contains x = true ↔
      x = id ∨ host.vars.contains x = true ∧ host.owned? link ≠ some x := by
  have hparsed : (VariableDefinition.parse csv).isOk = true := by
    cases hp : VariableDefinition.parse csv with
    | error e => simp [redefineVariable_unparsed hp] at h
    | ok d => rfl
  rw [redefineVariable_contains, if_pos hparsed, h, Except.ok.injEq, eq_comm]

theorem unlink_contains (link : Nat) :
    (host.unlink link).vars.contains x = true ↔ host.vars.contains x = true ∧ host.owned? link ≠ some x := by
  unfold unlink
  rw [owned_eq]
  rcases host.links.find? link with _ | ⟨id | _, _ | _⟩
  · simp
  · simp [HostLink.owned?]
  · simpa [HostLink.owned?] using @removeVariable_contains { host with links := host.links.erase link } x id
  · simp [HostLink.owned?]
  · simp [HostLink.owned?]

theorem relinkResult_vars (link : Nat) (id : Int64) : (host.relinkResult link id).1.vars = host.vars := by
  unfold relinkResult
  split <;> rfl

/-! ## Values, flags and samples -/

/-- Variables change, and events are queued. -/
def VariablesOnly (host host' : Host) : Prop := ∃ vars queue, host' = { host with vars := vars, queue := queue }

/-- Variables take on values or flags, and events are queued. -/
structure StoresOnly (host host' : Host) : Prop where
  inVars : VariablesOnly host host'
  contains : ∀ x, host'.vars.contains x = host.vars.contains x

/-- Results change, and events are queued. -/
def ResultsOnly (host host' : Host) : Prop :=
  ∃ results queue, host' = { host with results := results, queue := queue }

theorem VariablesOnly.unchanged : VariablesOnly host host := ⟨_, _, rfl⟩

theorem StoresOnly.unchanged : StoresOnly host host := ⟨.unchanged, fun _ => rfl⟩

theorem ResultsOnly.unchanged : ResultsOnly host host := ⟨_, _, rfl⟩

theorem defineVariable_variables (csv : String) : VariablesOnly host (host.defineVariable csv).1 := by
  unfold defineVariable
  cases VariableDefinition.parse csv with
  | error e => exact .unchanged
  | ok d =>
    dsimp only
    unfold insertVariable
    split
    · exact .unchanged
    · exact ⟨_, _, rfl⟩

theorem removeVariable_variables (id : Int64) : VariablesOnly host (host.removeVariable id).1 := by
  unfold removeVariable
  split
  · exact ⟨_, _, rfl⟩
  · exact .unchanged

/-- A variable that is there stays when another takes its place. -/
theorem contains_replace {v : Variable} {id : Int64} (h : host.vars.find? id = some v) (w : Variable) (x : Int64) :
    (host.vars.insert id w).contains x = host.vars.contains x := by
  rw [Directory.contains, Directory.contains, Directory.find_insert]
  split
  · rename_i hx
    rw [hx, h]
    rfl
  · rfl

theorem storeVariable_stores (id : Int64) (v : Value) (except : Option Nat) :
    StoresOnly host (host.storeVariable id v except).1 := by
  unfold storeVariable
  cases hs : (host.vars.find? id).bind (·.store? v) with
  | none => exact .unchanged
  | some r =>
    obtain ⟨old, hfind, -⟩ := Option.bind_eq_some_iff.mp hs
    obtain ⟨w, _ | _⟩ := r <;> exact ⟨⟨_, _, rfl⟩, contains_replace hfind w⟩

theorem setVariable_stores (link : Nat) (v : Value) (skipSelf : Bool) :
    StoresOnly host (host.setVariable link v skipSelf).1 := by
  unfold setVariable
  rcases host.links.find? link with _ | ⟨id | _, _⟩
  · exact .unchanged
  · dsimp only
    split
    · exact .unchanged
    · exact storeVariable_stores id v _
  · exact .unchanged

theorem storeFlags_stores (id : Int64) (flags : VariableFlags) (except : Option Nat) :
    StoresOnly host (host.storeFlags id flags except).1 := by
  unfold storeFlags
  cases hfind : host.vars.find? id with
  | none => exact .unchanged
  | some v =>
    dsimp only
    split
    · exact .unchanged
    · exact ⟨⟨_, _, rfl⟩, contains_replace hfind _⟩

theorem updateFlags_stores (link : Nat) (flags : VariableFlags) (skipSelf : Bool) :
    StoresOnly host (host.updateFlags link flags skipSelf).1 := by
  unfold updateFlags
  split
  · exact storeFlags_stores _ flags _
  · exact .unchanged

theorem defineResult_results (csv : String) : ResultsOnly host (host.defineResult csv).1 := by
  unfold defineResult
  cases ResultDefinition.parse csv with
  | error e => exact .unchanged
  | ok d =>
    dsimp only
    split
    · exact .unchanged
    · exact ⟨_, _, rfl⟩

/-- Those whose requests are covered are told one after the other. -/
theorem tell_requests_eq (done : List Request) (host : Host) :
    done.foldl (fun host q => host.emitTo q.link .gotRange) host =
      { host with queue := host.queue ++ done.map fun q => ⟨q.link, .gotRange⟩ } := by
  induction done generalizing host with
  | nil => simp
  | cons q done ih => rw [List.foldl_cons, ih]; simp [emitTo]

theorem commitResult_results (id : Int64) (samples : List Int64) :
    ResultsOnly host (host.commitResult id samples).1 := by
  unfold commitResult
  cases host.results.find? id with
  | none => exact .unchanged
  | some r => exact ⟨_, _, tell_requests_eq _ _⟩

theorem clearResult_results (id : Int64) : ResultsOnly host (host.clearResult id).1 := by
  unfold clearResult
  cases host.results.find? id with
  | none => exact .unchanged
  | some r => exact ⟨_, _, rfl⟩

theorem requestRange_results (link : Nat) (offset size : Int64) :
    ResultsOnly host (host.requestRange link offset size).1 := by
  unfold requestRange
  split
  · exact .unchanged
  · split
    · rename_i id _
      cases host.results.find? id with
      | none => exact .unchanged
      | some r =>
        dsimp only
        split
        · exact .unchanged
        · exact ⟨_, _, rfl⟩
    · exact .unchanged

theorem ResultsOnly.contains (h : ResultsOnly host host') (x : Int64) :
    host'.vars.contains x = host.vars.contains x := by
  obtain ⟨_, _, rfl⟩ := h
  rfl

/-- The links stay as they are, and so do the numbers of the variables. -/
structure SameStock (host host' : Host) : Prop where
  links : host'.links = host.links
  lastLink : host'.lastLink = host.lastLink
  contains : ∀ x, host'.vars.contains x = host.vars.contains x

theorem SameStock.rfl : SameStock host host := ⟨Eq.refl _, Eq.refl _, fun _ => Eq.refl _⟩

theorem StoresOnly.sameStock (h : StoresOnly host host') : SameStock host host' := by
  obtain ⟨⟨vars, queue, hvars⟩, hcontains⟩ := h
  exact ⟨congrArg (·.links) hvars, congrArg (·.lastLink) hvars, hcontains⟩

theorem ResultsOnly.sameStock (h : ResultsOnly host host') : SameStock host host' := by
  obtain ⟨results, queue, rfl⟩ := h
  exact ⟨Eq.refl _, Eq.refl _, fun _ => Eq.refl _⟩

theorem SameStock.owned (h : SameStock host host') (link : Nat) : host'.owned? link = host.owned? link := by
  rw [owned_eq, owned_eq, h.links]

/-! ## Links -/

/-- The links after one of them is made, attached elsewhere or removed. -/
def relinked (links : Directory Nat HostLink) : Option (Nat × Option HostLink) → Directory Nat HostLink
  | some (link, some l) => links.insert link l
  | some (link, none) => links.erase link
  | none => links

/-- What becomes of the links: what is attached is there already or made now. -/
structure Attaches (host host' : Host) (change : Option (Nat × Option HostLink)) : Prop where
  links : host'.links = relinked host.links change
  lastLink : host.lastLink ≤ host'.lastLink
  known : ∀ link l, change = some (link, some l) → host.links.find? link ≠ none ∨ link = host'.lastLink

theorem Attaches.none (hlinks : host'.links = host.links) (hlast : host'.lastLink = host.lastLink) :
    Attaches host host' none := ⟨hlinks, hlast ▸ Nat.le_refl _, by simp⟩

theorem Attaches.elsewhere {old l : HostLink} (hold : host.links.find? link = some old)
    (hlinks : host'.links = host.links.insert link l) (hlast : host'.lastLink = host.lastLink) :
    Attaches host host' (some (link, some l)) := by
  refine ⟨hlinks, hlast ▸ Nat.le_refl _, fun other l' h => .inl ?_⟩
  cases h
  simp [hold]

theorem Attaches.removed (hlinks : host'.links = host.links.erase link) (hlast : host'.lastLink = host.lastLink) :
    Attaches host host' (some (link, .none)) := ⟨hlinks, hlast ▸ Nat.le_refl _, by simp⟩

theorem addLink_attaches (target : LinkTarget) (owner : Bool) :
    Attaches host (host.addLink target owner).1 (some (host.lastLink + 1, some ⟨target, owner⟩)) := by
  refine ⟨rfl, Nat.le_succ _, fun link l h => .inr ?_⟩
  cases h
  rfl

theorem VariablesOnly.attaches (h : VariablesOnly host host') : Attaches host host' Option.none := by
  obtain ⟨_, _, rfl⟩ := h
  exact .none rfl rfl

theorem ResultsOnly.attaches (h : ResultsOnly host host') : Attaches host host' Option.none := by
  obtain ⟨_, _, rfl⟩ := h
  exact .none rfl rfl

theorem exportVariable_attaches (csv : String) :
    Attaches host (host.exportVariable csv).1
      ((host.defineVariable csv).2.toOption.map fun id => (host.lastLink + 1, some ⟨.variable id, true⟩)) := by
  obtain ⟨vars, queue, hdefine⟩ : VariablesOnly host (host.defineVariable csv).1 := defineVariable_variables csv
  unfold exportVariable
  split
  · rename_i hd
    rw [hd] at hdefine ⊢
    obtain rfl := hdefine
    exact .none rfl rfl
  · rename_i id hd
    rw [hd] at hdefine ⊢
    obtain rfl := hdefine
    have hadd := @addLink_attaches { host with vars := vars, queue := queue } (.variable id) true
    exact ⟨hadd.links, hadd.lastLink, hadd.known⟩

/-- An exported variable is defined, and its link is the next one. -/
theorem exportVariable_ok (h : (host.exportVariable csv).2 = .ok link) :
    link = host.lastLink + 1 ∧ (host.exportVariable csv).1.lastLink = host.lastLink + 1 ∧
      ∃ id, (host.defineVariable csv).2 = .ok id := by
  obtain ⟨vars, queue, hdefine⟩ : VariablesOnly host (host.defineVariable csv).1 := defineVariable_variables csv
  unfold exportVariable at h ⊢
  split at h
  · cases h
  · rename_i id hd
    rw [hd] at hdefine ⊢
    obtain rfl := hdefine
    exact ⟨(Except.ok.inj h).symm, rfl, id, rfl⟩

theorem relinkVariable_attaches (link : Nat) (id : Int64) :
    Attaches host (host.relinkVariable link id).1
      ((host.links.find? link).map fun _ => (link, some ⟨.variable id, false⟩)) := by
  unfold relinkVariable
  cases hl : host.links.find? link with
  | none => exact .none rfl rfl
  | some old =>
    refine .elsewhere hl ?_ ?_ <;> obtain ⟨previous | _, owner⟩ := old <;> dsimp only [emitTo] <;> split <;> rfl

theorem redefineVariable_attaches (link : Nat) (csv : String) :
    Attaches host (host.redefineVariable link csv).1
      ((host.redefineVariable link csv).2.toOption.map fun id => (link, some ⟨.variable id, true⟩)) := by
  have h := redefineVariable_cases host link csv
  generalize host.redefineVariable link csv = r at h ⊢
  cases h with
  | refused => exact .none rfl rfl
  | taken => exact .none rfl rfl
  | defined _ hl => exact .elsewhere hl rfl rfl

theorem unlink_attaches (link : Nat) : Attaches host (host.unlink link) (some (link, .none)) := by
  unfold unlink
  cases hl : host.links.find? link with
  | none => exact .removed (Directory.erase_eq_self hl).symm rfl
  | some l =>
    obtain ⟨id | id, _ | _⟩ := l
    · exact .removed rfl rfl
    · obtain ⟨vars, queue, hremove⟩ := @removeVariable_variables { host with links := host.links.erase link } id
      simp only [if_true]
      rw [hremove]
      exact .removed rfl rfl
    · exact .removed rfl rfl
    · exact .removed rfl rfl

theorem relinkResult_attaches (link : Nat) (id : Int64) :
    Attaches host (host.relinkResult link id).1
      ((host.links.find? link).map fun l => (link, some { l with target := .result id })) := by
  unfold relinkResult
  cases hl : host.links.find? link with
  | none => exact .none rfl rfl
  | some old => exact .elsewhere hl rfl rfl

end Host

namespace HostOperation

open Host

variable {host : Host}

theorem contains_defined {contains before : Prop} {r : Except DefinitionError Int64} {frees : Option Int64} {x : Int64}
    (h : contains ↔ r = .ok x ∨ before ∧ frees ≠ some x) (link : Option Nat) :
    contains ↔ (∃ m, r.toOption.map (fun id => (id, link)) = some (x, m)) ∨ before ∧ frees ≠ some x := by
  rw [h]
  cases r <;> simp [Except.toOption]

theorem contains_freed {contains before : Prop} {frees : Option Int64} {x : Int64}
    (h : contains ↔ before ∧ frees ≠ some x) :
    contains ↔ (∃ m : Option Nat, none = some (x, m)) ∨ before ∧ frees ≠ some x := by
  rw [h]
  simp

theorem contains_kept {contains before : Bool} {x : Int64} (h : contains = before) :
    contains = true ↔ (∃ m : Option Nat, none = some (x, m)) ∨ before = true ∧ none ≠ some x := by
  rw [h]
  simp

/-- What is defined after an operation: what it defines, and what was there and is not taken away. -/
theorem contains_after (op : HostOperation) (x : Int64) :
    (op.after host).vars.contains x = true ↔
      (∃ link, op.defines? host = some (x, link)) ∨ host.vars.contains x = true ∧ op.frees? host ≠ some x := by
  cases op <;> simp only [after, defines?, frees?]
  case defineVariable csv => exact contains_defined (by simp [defineVariable_contains]) none
  case exportVariable csv =>
    exact contains_defined (by simp [exportVariable_vars, defineVariable_contains]) _
  case redefineVariable link csv => exact contains_defined (redefineVariable_contains link csv) _
  case removeVariable id => exact contains_freed (by simp [removeVariable_contains])
  case relinkVariable link id => exact contains_freed (relinkVariable_contains link id)
  case unlink link => exact contains_freed (unlink_contains link)
  case setVariable link v skipSelf => exact contains_kept ((setVariable_stores link v skipSelf).contains x)
  case setVariableValue id v => exact contains_kept ((storeVariable_stores id v none).contains x)
  case updateFlags link flags skipSelf =>
    exact contains_kept ((updateFlags_stores link flags skipSelf).contains x)
  case setVariableFlags id flags => exact contains_kept ((storeFlags_stores id flags none).contains x)
  case defineResult csv => exact contains_kept ((defineResult_results csv).contains x)
  case commitResult id samples => exact contains_kept ((commitResult_results id samples).contains x)
  case clearResult id => exact contains_kept ((clearResult_results id).contains x)
  case requestRange link offset size =>
    exact contains_kept ((requestRange_results link offset size).contains x)
  case relinkResult link id => exact contains_kept (congrArg (·.contains x) (relinkResult_vars link id))
  case importVariable id => exact contains_kept rfl
  case linkResult id => exact contains_kept rfl
  case takeEvents => exact contains_kept rfl

/-- An operation touches one link at most. -/
theorem attaches_after (op : HostOperation) : Attaches host (op.after host) (op.attaches? host) := by
  cases op <;> simp only [after, attaches?]
  case defineVariable csv => exact (defineVariable_variables csv).attaches
  case exportVariable csv => exact exportVariable_attaches csv
  case importVariable id => exact addLink_attaches _ _
  case removeVariable id => exact (removeVariable_variables id).attaches
  case relinkVariable link id => exact relinkVariable_attaches link id
  case redefineVariable link csv => exact redefineVariable_attaches link csv
  case unlink link => exact unlink_attaches link
  case linkResult id => exact addLink_attaches _ _
  case relinkResult link id => exact relinkResult_attaches link id
  case takeEvents => exact .none rfl rfl
  case setVariable link v skipSelf => exact (setVariable_stores link v skipSelf).inVars.attaches
  case setVariableValue id v => exact (storeVariable_stores id v none).inVars.attaches
  case updateFlags link flags skipSelf => exact (updateFlags_stores link flags skipSelf).inVars.attaches
  case setVariableFlags id flags => exact (storeFlags_stores id flags none).inVars.attaches
  case defineResult csv => exact (defineResult_results csv).attaches
  case commitResult id samples => exact (commitResult_results id samples).attaches
  case clearResult id => exact (clearResult_results id).attaches
  case requestRange link offset size => exact (requestRange_results link offset size).attaches

/-- What becomes of the link that an operation touches. -/
theorem find_touched {op : HostOperation} {link : Nat} {l : Option HostLink}
    (h : op.attaches? host = some (link, l)) : (op.after host).links.find? link = l := by
  rw [op.attaches_after.links, h]
  cases l with
  | none => exact Directory.find_erase_self _ _
  | some l => exact Directory.find_insert_self _ _ _

/-- The other links stay as they are. -/
theorem find_untouched {op : HostOperation} {link : Nat} (h : ∀ l, op.attaches? host ≠ some (link, l)) :
    (op.after host).links.find? link = host.links.find? link := by
  rw [op.attaches_after.links]
  rcases ha : op.attaches? host with _ | ⟨other, _ | l⟩
  · rfl
  · exact Directory.find_erase_ne _ fun he => h none (he ▸ ha)
  · have hne : link ≠ other := fun he => h (some l) (he ▸ ha)
    exact Directory.find_insert_ne _ hne l

/-- An operation that touches no link leaves all of them. -/
theorem links_unattached {op : HostOperation} (h : op.attaches? host = none) : (op.after host).links = host.links := by
  rw [op.attaches_after.links, h, relinked]

theorem find_attached {op : HostOperation} {link : Nat} {l : HostLink} (h : op.attaches? host = some (link, some l))
    (other : Nat) : (op.after host).links.find? other = if other = link then some l else host.links.find? other := by
  split
  · rename_i he
    rw [he, find_touched h]
  · rename_i hne
    exact find_untouched fun l' ha => hne (congrArg Prod.fst (Option.some_inj.mp (ha.symm.trans h)))

/-- What links own after one of them is attached. -/
theorem owned_attached {op : HostOperation} {link : Nat} {l : HostLink} (h : op.attaches? host = some (link, some l))
    (other : Nat) : (op.after host).owned? other = if other = link then l.owned? else host.owned? other := by
  rw [owned_eq, owned_eq, find_attached h]
  split <;> rfl

theorem numbered_after (h : host.Numbered) (op : HostOperation) : (op.after host).Numbered := by
  intro link l hl
  have hchange : Attaches host (op.after host) (op.attaches? host) := op.attaches_after
  by_cases htouched : ∃ l, op.attaches? host = some (link, l)
  · obtain ⟨l', ha⟩ := htouched
    obtain rfl : l' = some l := (find_touched ha).symm.trans hl
    rcases hchange.known link l ha with hknown | hmade
    · obtain ⟨old, hold⟩ := Option.ne_none_iff_exists'.mp hknown
      exact Nat.le_trans (h link old hold) hchange.lastLink
    · exact Nat.le_of_eq hmade
  · rw [find_untouched fun l ha => htouched ⟨l, ha⟩] at hl
    exact Nat.le_trans (h link l hl) hchange.lastLink

/-! ## What links define and take away -/

section Acting

variable {op : HostOperation} {link : Nat} {x : Int64}

/-- Nothing is taken away through a link but what the link owns. -/
theorem owned_of_frees (hlink : op.link? = some link) (h : op.frees? host = some x) :
    host.owned? link = some x := by
  cases op <;> simp only [link?, frees?, reduceCtorEq, Option.some_inj] at hlink h <;> subst hlink
  case relinkVariable => exact Option.eq_some_of_filter_eq_some h
  case redefineVariable =>
    split at h
    · exact h
    · cases h
  case unlink => exact h

theorem ok_of_toOption {ε α : Type} {r : Except ε α} {a : α} (h : r.toOption = some a) : r = .ok a := by
  cases r with
  | error e => cases h
  | ok b => exact congrArg Except.ok (Option.some_inj.mp h)

theorem owned_of_redefined {csv : String} (h : (host.redefineVariable link csv).2 = .ok x)
    (hx : host.vars.contains x = true) : host.owned? link = some x := by
  have hcases := redefineVariable_cases host link csv
  generalize host.redefineVariable link csv = r at h hcases
  cases hcases with
  | refused => cases h
  | taken => cases h
  | @defined d _ _ _ hfree =>
    obtain rfl : d.id = x := Except.ok.inj h
    exact Classical.byContradiction fun howned => hfree ((varsWithout_contains link).mpr ⟨hx, howned⟩)

/-- A link that owns a variable now has just defined it. -/
theorem defines_of_attaches {l : HostLink} (h : op.attaches? host = some (link, some l)) (hl : l.owned? = some x) :
    op.defines? host = some (x, some link) := by
  cases op <;> simp only [attaches?, defines?, reduceCtorEq, Option.map_eq_some_iff, Option.some_inj] at h ⊢
  case exportVariable csv | redefineVariable csv =>
    obtain ⟨id, hid, he⟩ := h
    cases he
    cases hl
    exact ⟨x, hid, rfl⟩
  case relinkVariable | relinkResult =>
    obtain ⟨_, -, he⟩ := h
    cases he
    cases hl
  case importVariable | linkResult =>
    cases h
    cases hl
  case unlink => cases h

/-- What is defined through a link attaches that link and touches no other. -/
theorem attaches_of_defines {maker : Option Nat} (h : op.defines? host = some (x, maker)) :
    op.attaches? host = maker.map fun link => (link, some ⟨.variable x, true⟩) := by
  cases op <;> simp only [attaches?, defines?, reduceCtorEq, Option.map_eq_some_iff] at h ⊢
  case defineVariable csv | exportVariable csv | redefineVariable csv =>
    obtain ⟨id, hid, he⟩ := h
    cases he
    simp [hid]

end Acting

end HostOperation

end HostScript
