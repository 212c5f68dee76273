import HostScript.Proofs.HostOperations
/-!
# What operations do to variables

Whoever is attached to a variable is told when it appears or disappears, when its value changes and when its
flags do. What an operation does to the variables is said once, together with what it queues: it leaves them
alone, defines or removes one, stores a value or stores flags. Defining the variable of a link anew is no such
step, since one variable goes and another comes.
-/

set_option autoImplicit false

namespace HostScript

namespace HostOperation

/-- The link that an operation acts through. -/
def link? : HostOperation → Option Nat
  | relinkVariable link _ | redefineVariable link _ | setVariable link _ _ | updateFlags link _ _
  | relinkResult link _ | requestRange link _ _ | unlink link => some link
  | _ => none

end HostOperation

namespace Host

variable {host host' : Host} {link : Nat} {x id : Int64} {e : Event} {acting : Option Nat}

/-! ## Events -/

/-- An event for a link was appended to the queue. -/
def Tells (host host' : Host) (link : Nat) (e : Event) : Prop :=
  ∃ new, host'.queue = host.queue ++ new ∧ ⟨link, e⟩ ∈ new

/-- All that are attached to a variable are told, but for the link that acts. -/
def TellsAll (host host' : Host) (acting : Option Nat) (id : Int64) (e : Event) : Prop :=
  ∀ link, host.target? link = some (.variable id) → acting ≠ some link → Tells host host' link e

theorem Tells.append {host'' : Host} (h : Tells host host' link e) {more : List LinkEvent}
    (hq : host''.queue = host'.queue ++ more) : Tells host host'' link e := by
  obtain ⟨new, hnew, hmem⟩ := h
  exact ⟨new ++ more, by rw [hq, hnew, List.append_assoc], List.mem_append_left _ hmem⟩

theorem target_eq_some {target : LinkTarget} (h : host.target? link = some target) :
    ∃ owner, host.links.find? link = some ⟨target, owner⟩ := by
  obtain ⟨⟨_, owner⟩, hl, rfl⟩ := Option.map_eq_some_iff.mp h
  exact ⟨owner, hl⟩

theorem tells_emit {target : LinkTarget} {except : Option Nat} (h : host.target? link = some target)
    (hne : except ≠ some link) : Tells host (host.emit target e except) link e := by
  obtain ⟨owner, hl⟩ := target_eq_some h
  refine ⟨_, rfl, List.mem_map.mpr ⟨(link, ⟨target, owner⟩), List.mem_filter.mpr ⟨Directory.mem_of_find hl, ?_⟩, rfl⟩⟩
  simpa using Ne.symm hne

/-- Only those that are attached to a target are told. -/
theorem not_tells_emit {target other : LinkTarget} {except : Option Nat} (hlinks : host.links.Increasing)
    (h : host.target? link = some other) (hne : other ≠ target) :
    ¬Tells host (host.emit target e except) link e := by
  rintro ⟨new, hnew, hmem⟩
  obtain rfl := List.append_cancel_left hnew
  obtain ⟨⟨l, found, owner⟩, hl, he⟩ := List.mem_map.mp hmem
  obtain ⟨hentry, htarget⟩ := List.mem_filter.mp hl
  obtain rfl : l = link := congrArg LinkEvent.link he
  obtain ⟨rfl, -⟩ : found = target ∧ _ := by simpa using htarget
  have hfound : host.target? l = some found := by rw [target?, Directory.find_of_mem hlinks hentry]; rfl
  exact hne (Option.some_inj.mp (h.symm.trans hfound))

theorem tellsAll_emit {except : Option Nat} (h : except = none ∨ except = acting) :
    TellsAll host (host.emit (.variable id) e except) acting id e := by
  intro link hlink hacting
  refine tells_emit hlink ?_
  rcases h with rfl | rfl
  · simp
  · exact hacting

theorem skipped_cases (link : Nat) (skipSelf : Bool) :
    skipped link skipSelf = none ∨ skipped link skipSelf = some link := by
  cases skipSelf with
  | false => exact .inl rfl
  | true => exact .inr rfl

/-! ## Steps -/

/-- What becomes of the variables, and who is told. -/
inductive VariableStep (host : Host) (acting : Option Nat) (host' : Host) : Prop
  | quiet : host'.vars = host.vars → VariableStep host acting host'
  | defines (csv : String) (d : VariableDefinition) : VariableDefinition.parse csv = .ok d →
    host.vars.find? d.id = none → host'.vars = host.vars.insert d.id (.ofDefinition d) →
    TellsAll host host' acting d.id .idChanged → VariableStep host acting host'
  | removes (id : Int64) : host'.vars = host.vars.erase id → TellsAll host host' acting id .idChanged →
    VariableStep host acting host'
  | stores (id : Int64) (v w : Variable) (incoming : Value) (changed : Bool) : host.vars.find? id = some v →
    v.store? incoming = some (w, changed) → host'.vars = host.vars.insert id w →
    (changed = true → TellsAll host host' acting id .valueChange) → VariableStep host acting host'
  | storesFlags (id : Int64) (v : Variable) (flags : VariableFlags) : host.vars.find? id = some v →
    host'.vars = host.vars.insert id { v with flags := flags } → TellsAll host host' acting id .flagsChange →
    VariableStep host acting host'

/-- What becomes of the links. -/
inductive LinkStep (host host' : Host) : Prop
  | kept : host'.links = host.links → LinkStep host host'
  | attached (link : Nat) (l : HostLink) : host'.links = host.links.insert link l → LinkStep host host'
  | removed (link : Nat) : host'.links = host.links.erase link → LinkStep host host'

structure Step (host : Host) (acting : Option Nat) (host' : Host) : Prop where
  vars : VariableStep host acting host'
  links : LinkStep host host'

theorem Step.unchanged : Step host acting host := ⟨.quiet rfl, .kept rfl⟩

theorem defineVariable_step (csv : String) : Step host acting (host.defineVariable csv).1 := by
  unfold defineVariable
  cases hp : VariableDefinition.parse csv with
  | error e => exact .unchanged
  | ok d =>
    dsimp only
    unfold insertVariable
    split
    · exact .unchanged
    · rename_i hfree
      have hnone : host.vars.find? d.id = none := by simpa [Directory.contains] using hfree
      exact ⟨.defines csv d hp hnone rfl (tellsAll_emit (.inl rfl)), .kept rfl⟩

/-- A new link changes nothing for the variables. -/
theorem VariableStep.addLink (h : VariableStep host acting host') (target : LinkTarget) (owner : Bool) :
    VariableStep host acting (host'.addLink target owner).1 := by
  cases h with
  | quiet hv => exact .quiet hv
  | defines csv d hp hnone hv ht => exact .defines csv d hp hnone hv ht
  | removes id hv ht => exact .removes id hv ht
  | stores id v w incoming changed hfind hs hv ht => exact .stores id v w incoming changed hfind hs hv ht
  | storesFlags id v flags hfind hv ht => exact .storesFlags id v flags hfind hv ht

theorem defineVariable_links (csv : String) : (host.defineVariable csv).1.links = host.links := by
  unfold defineVariable
  cases VariableDefinition.parse csv with
  | error e => rfl
  | ok d =>
    dsimp only
    unfold insertVariable
    split <;> rfl

theorem exportVariable_step (csv : String) : Step host acting (host.exportVariable csv).1 := by
  have hdefine : Step host acting (host.defineVariable csv).1 := defineVariable_step csv
  have hlinks : (host.defineVariable csv).1.links = host.links := defineVariable_links csv
  unfold exportVariable
  split
  · rename_i hd
    rwa [hd] at hdefine
  · rename_i hd
    rw [hd] at hdefine hlinks
    exact ⟨hdefine.vars.addLink _ _, .attached _ _ (congrArg (fun links => Directory.insert links _ _) hlinks)⟩

theorem removeVariable_step (id : Int64) : Step host acting (host.removeVariable id).1 := by
  unfold removeVariable
  split
  · exact ⟨.removes id rfl (tellsAll_emit (.inl rfl)), .kept rfl⟩
  · exact .unchanged

theorem relinkVariable_step (link : Nat) (id : Int64) : Step host (some link) (host.relinkVariable link id).1 := by
  unfold relinkVariable
  cases host.links.find? link with
  | none => exact .unchanged
  | some old =>
    obtain ⟨previous | _, owner⟩ := old
    · dsimp only
      split
      · refine ⟨.removes previous rfl fun l hl hacting => Tells.append ?_ rfl, .attached link _ rfl⟩
        exact tellsAll_emit (.inr rfl) l hl hacting
      · exact ⟨.quiet rfl, .attached link _ rfl⟩
    · exact ⟨.quiet rfl, .attached link _ rfl⟩

theorem unlink_step (link : Nat) : Step host (some link) (host.unlink link) := by
  unfold unlink
  cases host.links.find? link with
  | none => exact .unchanged
  | some l =>
    obtain ⟨id | id, owner⟩ := l
    · cases owner with
      | false => exact ⟨.quiet rfl, .removed link rfl⟩
      | true =>
        simp only [if_true]
        unfold removeVariable
        split
        · refine ⟨.removes id rfl fun l hl hacting => ?_, .removed link rfl⟩
          -- the others are told after the link has gone
          have hne : l ≠ link := fun h => hacting (congrArg some h.symm)
          have hrest : ({ host with links := host.links.erase link, vars := host.vars.erase id } : Host).target? l =
              some (.variable id) := by
            rw [← hl]
            exact congrArg (Option.map HostLink.target) (Directory.find_erase_ne host.links hne)
          exact tells_emit hrest (by simp)
        · exact ⟨.quiet rfl, .removed link rfl⟩
    · exact ⟨.quiet rfl, .removed link rfl⟩

theorem storeVariable_step {except : Option Nat} (hexcept : except = none ∨ except = acting) (id : Int64) (v : Value) :
    Step host acting (host.storeVariable id v except).1 := by
  unfold storeVariable
  cases hs : (host.vars.find? id).bind (·.store? v) with
  | none => exact .unchanged
  | some r =>
    obtain ⟨w, changed⟩ := r
    obtain ⟨old, hfind, hstore⟩ := Option.bind_eq_some_iff.mp hs
    cases changed with
    | false => exact ⟨.stores id old w v false hfind hstore rfl (by simp), .kept rfl⟩
    | true => exact ⟨.stores id old w v true hfind hstore rfl fun _ => tellsAll_emit hexcept, .kept rfl⟩

theorem setVariable_step (link : Nat) (v : Value) (skipSelf : Bool) :
    Step host (some link) (host.setVariable link v skipSelf).1 := by
  unfold setVariable
  cases host.links.find? link with
  | none => exact .unchanged
  | some l =>
    obtain ⟨id | id, owner⟩ := l
    · dsimp only
      split
      · exact .unchanged
      · exact storeVariable_step (skipped_cases link skipSelf) id v
    · exact .unchanged

theorem storeFlags_step {except : Option Nat} (hexcept : except = none ∨ except = acting) (id : Int64)
    (flags : VariableFlags) : Step host acting (host.storeFlags id flags except).1 := by
  unfold storeFlags
  cases hfind : host.vars.find? id with
  | none => exact .unchanged
  | some v =>
    dsimp only
    split
    · exact .unchanged
    · exact ⟨.storesFlags id v flags hfind rfl (tellsAll_emit hexcept), .kept rfl⟩

theorem updateFlags_step (link : Nat) (flags : VariableFlags) (skipSelf : Bool) :
    Step host (some link) (host.updateFlags link flags skipSelf).1 := by
  unfold updateFlags
  split
  · exact storeFlags_step (skipped_cases link skipSelf) _ flags
  · exact .unchanged

/-! ## Steps of results -/

theorem defineResult_step (csv : String) : Step host acting (host.defineResult csv).1 := by
  unfold defineResult
  cases ResultDefinition.parse csv with
  | error e => exact .unchanged
  | ok d =>
    dsimp only
    split
    · exact .unchanged
    · exact ⟨.quiet rfl, .kept rfl⟩

theorem relinkResult_step (link : Nat) (id : Int64) : Step host acting (host.relinkResult link id).1 := by
  unfold relinkResult
  cases host.links.find? link with
  | none => exact .unchanged
  | some l => exact ⟨.quiet rfl, .attached link _ rfl⟩

/-- Telling those whose requests are covered changes neither variables nor links. -/
theorem tell_requests (done : List Request) (host : Host) :
    (done.foldl (fun host q => host.emitTo q.link .gotRange) host).vars = host.vars ∧
      (done.foldl (fun host q => host.emitTo q.link .gotRange) host).links = host.links := by
  induction done generalizing host with
  | nil => exact ⟨rfl, rfl⟩
  | cons q done ih => exact ih (host.emitTo q.link .gotRange)

theorem commitResult_step (id : Int64) (samples : List Int64) : Step host acting (host.commitResult id samples).1 := by
  unfold commitResult
  cases host.results.find? id with
  | none => exact .unchanged
  | some r => exact ⟨.quiet (tell_requests _ _).1, .kept (tell_requests _ _).2⟩

theorem clearResult_step (id : Int64) : Step host acting (host.clearResult id).1 := by
  unfold clearResult
  cases host.results.find? id with
  | none => exact .unchanged
  | some r => exact ⟨.quiet rfl, .kept rfl⟩

theorem requestRange_step (link : Nat) (offset size : Int64) :
    Step host acting (host.requestRange link offset size).1 := by
  unfold requestRange
  split
  · exact .unchanged
  · split
    · rename_i id _
      cases host.results.find? id with
      | none => exact .unchanged
      | some r =>
        dsimp only
        split
        · exact .unchanged
        · exact ⟨.quiet rfl, .kept rfl⟩
    · exact .unchanged

/-- Every operation is such a step, but for defining the variable of a link anew. -/
theorem after_step (host : Host) (op : HostOperation) (hop : ∀ link csv, op ≠ .redefineVariable link csv) :
    Step host op.link? (op.after host) := by
  cases op with
  | redefineVariable link csv => exact absurd rfl (hop link csv)
  | defineVariable csv => exact defineVariable_step csv
  | exportVariable csv => exact exportVariable_step csv
  | importVariable id => exact ⟨.quiet rfl, .attached _ _ rfl⟩
  | removeVariable id => exact removeVariable_step id
  | relinkVariable link id => exact relinkVariable_step link id
  | setVariable link v skipSelf => exact setVariable_step link v skipSelf
  | setVariableValue id v => exact storeVariable_step (.inl rfl) id v
  | updateFlags link flags skipSelf => exact updateFlags_step link flags skipSelf
  | setVariableFlags id flags => exact storeFlags_step (.inl rfl) id flags
  | defineResult csv => exact defineResult_step csv
  | linkResult id => exact ⟨.quiet rfl, .attached _ _ rfl⟩
  | relinkResult link id => exact relinkResult_step link id
  | commitResult id samples => exact commitResult_step id samples
  | clearResult id => exact clearResult_step id
  | requestRange link offset size => exact requestRange_step link offset size
  | unlink link => exact unlink_step link
  | takeEvents => exact ⟨.quiet rfl, .kept rfl⟩

theorem redefineVariable_links (link : Nat) (csv : String) : LinkStep host (host.redefineVariable link csv).1 := by
  have h := redefineVariable_cases host link csv
  generalize host.redefineVariable link csv = r at h ⊢
  cases h with
  | refused => exact .kept rfl
  | taken => exact .kept rfl
  | @defined d => exact .attached link ⟨.variable d.id, true⟩ rfl

end Host

end HostScript
