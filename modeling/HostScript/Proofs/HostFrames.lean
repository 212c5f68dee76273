import HostScript.Proofs.Notifications
import HostScript.Proofs.RangeRequests
/-!
# What operations leave alone

An operation names a number, in its definition if there is one, and it may act through a link, which is
attached to a number. Nothing else is changed by it: no other variable, no other result, and no other link. Its
events come last in the queue, and each of them is for the link that acts or for one that is attached to what the
operation addresses. That the answers to requests are no exception is due to the links to results: as long
as none of them is attached to a variable, whoever waits at a result is attached to it.
-/

set_option autoImplicit false

namespace HostScript

namespace HostOperation

/-- What an operation names. A definition that is refused names nothing. -/
def named? : HostOperation → Option LinkTarget
  | defineVariable csv | exportVariable csv | redefineVariable _ csv =>
    (VariableDefinition.parse csv).toOption.map fun d => .variable d.id
  | importVariable id | removeVariable id | relinkVariable _ id | setVariableValue id _ | setVariableFlags id _ =>
    some (.variable id)
  | defineResult csv => (ResultDefinition.parse csv).toOption.map fun d => .result d.id
  | linkResult id | relinkResult _ id | commitResult id _ | clearResult id => some (.result id)
  | setVariable _ _ _ | updateFlags _ _ _ | requestRange _ _ _ | unlink _ | takeEvents => none

/-- What an operation addresses: what it names, and what the link is attached to that it acts through. What
this link owns is nothing else. -/
def Addresses (host : Host) (op : HostOperation) (target : LinkTarget) : Prop :=
  op.named? = some target ∨ ∃ link, op.link? = some link ∧ host.target? link = some target

/-- Operations on variables act through no link to a result, and operations on results through none to a
variable. -/
def Suits (host : Host) : HostOperation → Prop
  | relinkVariable link _ | redefineVariable link _ | setVariable link _ _ | updateFlags link _ _ =>
    ∀ id, host.target? link ≠ some (.result id)
  | relinkResult link _ | requestRange link _ _ => ∀ id, host.target? link ≠ some (.variable id)
  | _ => True

end HostOperation

/-- The hosts that suitable operations lead to. -/
inductive Host.Disciplined : Host → Prop
  | empty : Disciplined .empty
  | step {host : Host} (op : HostOperation) : op.Suits host → Disciplined host → Disciplined (op.after host)

namespace Host

variable {host mid : Host} {addressed : LinkTarget → Prop} {acting : Option Nat} {link : Nat} {id : Int64}
  {csv : String}

/-! ## Frames -/

/-- An event is for the link that acts, or for one that is attached to what is addressed. -/
def Concerns (host : Host) (addressed : LinkTarget → Prop) (acting : Option Nat) (e : LinkEvent) : Prop :=
  acting = some e.link ∨ ∃ target, addressed target ∧ host.target? e.link = some target

/-- What is not addressed is as it was, and so are the links that do not act. -/
structure Kept (host : Host) (addressed : LinkTarget → Prop) (acting : Option Nat) (mid : Host) : Prop where
  vars : ∀ x, ¬addressed (.variable x) → mid.vars.find? x = host.vars.find? x
  results : ∀ x, ¬addressed (.result x) → mid.results.find? x = host.results.find? x
  links : ∀ link, acting ≠ some link → mid.links.find? link = host.links.find? link
  increasing : mid.links.Increasing
  queue : ∃ new, mid.queue = host.queue ++ new ∧ ∀ e ∈ new, Concerns host addressed acting e

theorem Kept.refl (h : host.links.Increasing) : Kept host addressed acting host :=
  ⟨fun _ _ => rfl, fun _ _ => rfl, fun _ _ => rfl, h, [], (List.append_nil _).symm, by simp⟩

theorem Kept.append (h : Kept host addressed acting mid) {more : List LinkEvent}
    (hmore : ∀ e ∈ more, Concerns host addressed acting e) :
    Kept host addressed acting { mid with queue := mid.queue ++ more } := by
  obtain ⟨new, hnew, hall⟩ := h.queue
  refine ⟨h.vars, h.results, h.links, h.increasing, new ++ more, ?_, fun e he => ?_⟩
  · rw [← List.append_assoc, ← hnew]
  · exact (List.mem_append.mp he).elim (hall e) (hmore e)

/-- The events for a target that is addressed. The link that acts may have been attached to it meanwhile. -/
theorem Kept.emit (h : Kept host addressed acting mid) {target : LinkTarget} (htarget : addressed target) (e : Event)
    (except : Option Nat) : Kept host addressed acting (mid.emit target e except) := by
  refine h.append fun e he => ?_
  obtain ⟨⟨link, l⟩, hl, rfl⟩ := List.mem_map.mp he
  obtain ⟨hentry, hattached⟩ := List.mem_filter.mp hl
  by_cases hacting : acting = some link
  · exact .inl hacting
  · obtain ⟨rfl, -⟩ : l.target = target ∧ _ := by simpa using hattached
    refine .inr ⟨l.target, htarget, ?_⟩
    rw [target?, ← h.links link hacting, Directory.find_of_mem h.increasing hentry]
    rfl

theorem Kept.emitTo (h : Kept host addressed (some link) mid) (e : Event) :
    Kept host addressed (some link) (mid.emitTo link e) :=
  h.append fun _ he => .inl (congrArg some (congrArg LinkEvent.link (List.mem_singleton.mp he)).symm)

theorem Kept.insertVariable (h : Kept host addressed acting mid) (hid : addressed (.variable id)) (v : Variable) :
    Kept host addressed acting { mid with vars := mid.vars.insert id v } := by
  refine ⟨fun x hx => ?_, h.results, h.links, h.increasing, h.queue⟩
  have hne : x ≠ id := fun he => absurd (he ▸ hid) hx
  exact (Directory.find_insert_ne _ hne v).trans (h.vars x hx)

theorem Kept.eraseVariable (h : Kept host addressed acting mid) (hid : addressed (.variable id)) :
    Kept host addressed acting { mid with vars := mid.vars.erase id } := by
  refine ⟨fun x hx => ?_, h.results, h.links, h.increasing, h.queue⟩
  have hne : x ≠ id := fun he => absurd (he ▸ hid) hx
  exact (Directory.find_erase_ne _ hne).trans (h.vars x hx)

theorem Kept.insertResult (h : Kept host addressed acting mid) (hid : addressed (.result id)) (r : Result) :
    Kept host addressed acting { mid with results := mid.results.insert id r } := by
  refine ⟨h.vars, fun x hx => ?_, h.links, h.increasing, h.queue⟩
  have hne : x ≠ id := fun he => absurd (he ▸ hid) hx
  exact (Directory.find_insert_ne _ hne r).trans (h.results x hx)

theorem Kept.modifyResult (h : Kept host addressed acting mid) (hid : addressed (.result id)) (f : Result → Result) :
    Kept host addressed acting { mid with results := mid.results.modify id f } := by
  refine ⟨h.vars, fun x hx => ?_, h.links, h.increasing, h.queue⟩
  have hne : x ≠ id := fun he => absurd (he ▸ hid) hx
  simp [Directory.find_modify, hne, h.results x hx]

theorem Kept.attach (h : Kept host addressed (some link) mid) (l : HostLink) :
    Kept host addressed (some link) { mid with links := mid.links.insert link l } := by
  refine ⟨h.vars, h.results, fun other hne => ?_, h.increasing.insert link l, h.queue⟩
  exact (Directory.find_insert_ne _ (fun he => hne (congrArg some he.symm)) l).trans (h.links other hne)

theorem Kept.detach (h : Kept host addressed (some link) mid) :
    Kept host addressed (some link) { mid with links := mid.links.erase link } := by
  refine ⟨h.vars, h.results, fun other hne => ?_, h.increasing.erase link, h.queue⟩
  exact (Directory.find_erase_ne _ fun he => hne (congrArg some he.symm)).trans (h.links other hne)

/-! ## Operations on variables -/

theorem Kept.defineVariable (h : Kept host addressed acting mid)
    (hcsv : ∀ d, VariableDefinition.parse csv = .ok d → addressed (.variable d.id)) :
    Kept host addressed acting (mid.defineVariable csv).1 := by
  unfold Host.defineVariable
  cases hp : VariableDefinition.parse csv with
  | error e => exact h
  | ok d =>
    dsimp only
    unfold Host.insertVariable
    split
    · exact h
    · exact (h.insertVariable (hcsv d hp) _).emit (hcsv d hp) _ _

theorem Kept.removeVariable (h : Kept host addressed acting mid) (hid : addressed (.variable id)) :
    Kept host addressed acting (mid.removeVariable id).1 := by
  unfold Host.removeVariable
  split
  · exact (h.eraseVariable hid).emit hid _ _
  · exact h

theorem Kept.relinkVariable (h : Kept host addressed (some link) mid)
    (hlink : ∀ target, mid.target? link = some target → addressed target) (id : Int64) :
    Kept host addressed (some link) (mid.relinkVariable link id).1 := by
  unfold Host.relinkVariable
  cases hl : mid.links.find? link with
  | none => exact h
  | some old =>
    have hold : addressed old.target := hlink _ (by rw [target?, hl]; rfl)
    obtain ⟨previous | previous, owner⟩ := old
    · dsimp only
      split
      · exact (((h.eraseVariable hold).emit hold _ _).attach _).emitTo _
      · exact (h.attach _).emitTo _
    · exact (h.attach _).emitTo _

theorem Kept.varsWithout (h : Kept host addressed acting mid)
    (hlink : ∀ target, mid.target? link = some target → addressed target) :
    Kept host addressed acting { mid with vars := mid.varsWithout link } := by
  unfold Host.varsWithout
  cases ho : mid.owned? link with
  | none => exact h
  | some id => exact h.eraseVariable (hlink _ (by rw [target?, find_of_owned ho]; rfl))

theorem Kept.redefineVariable (h : Kept host addressed (some link) mid)
    (hlink : ∀ target, mid.target? link = some target → addressed target)
    (hcsv : ∀ d, VariableDefinition.parse csv = .ok d → addressed (.variable d.id)) :
    Kept host addressed (some link) (mid.redefineVariable link csv).1 := by
  have hcases := redefineVariable_cases mid link csv
  generalize mid.redefineVariable link csv = r at hcases ⊢
  cases hcases with
  | refused => exact h
  | taken => exact h.varsWithout hlink
  | defined hp => exact (((h.varsWithout hlink).insertVariable (hcsv _ hp) _).attach _).emit (hcsv _ hp) _ _

theorem Kept.storeVariable (h : Kept host addressed acting mid) (hid : addressed (.variable id)) (v : Value)
    (except : Option Nat) : Kept host addressed acting (mid.storeVariable id v except).1 := by
  unfold Host.storeVariable
  cases (mid.vars.find? id).bind (·.store? v) with
  | none => exact h
  | some r =>
    obtain ⟨w, _ | _⟩ := r
    · exact h.insertVariable hid w
    · exact (h.insertVariable hid w).emit hid _ _

theorem Kept.setVariable (h : Kept host addressed acting mid)
    (hlink : ∀ target, mid.target? link = some target → addressed target) (v : Value) (skipSelf : Bool) :
    Kept host addressed acting (mid.setVariable link v skipSelf).1 := by
  unfold Host.setVariable
  cases hl : mid.links.find? link with
  | none => exact h
  | some l =>
    have hold : addressed l.target := hlink _ (by rw [target?, hl]; rfl)
    obtain ⟨id | id, owner⟩ := l
    · dsimp only
      split
      · exact h
      · exact h.storeVariable hold v _
    · exact h

theorem Kept.storeFlags (h : Kept host addressed acting mid) (hid : addressed (.variable id)) (flags : VariableFlags)
    (except : Option Nat) : Kept host addressed acting (mid.storeFlags id flags except).1 := by
  unfold Host.storeFlags
  cases mid.vars.find? id with
  | none => exact h
  | some v =>
    dsimp only
    split
    · exact h
    · exact (h.insertVariable hid _).emit hid _ _

theorem Kept.updateFlags (h : Kept host addressed acting mid)
    (hlink : ∀ target, mid.target? link = some target → addressed target) (flags : VariableFlags) (skipSelf : Bool) :
    Kept host addressed acting (mid.updateFlags link flags skipSelf).1 := by
  unfold Host.updateFlags
  split
  · rename_i id htarget
    exact h.storeFlags (hlink _ htarget) flags _
  · exact h

/-! ## Operations on results -/

theorem Kept.defineResult (h : Kept host addressed acting mid)
    (hcsv : ∀ d, ResultDefinition.parse csv = .ok d → addressed (.result d.id)) :
    Kept host addressed acting (mid.defineResult csv).1 := by
  unfold Host.defineResult
  cases hp : ResultDefinition.parse csv with
  | error e => exact h
  | ok d =>
    dsimp only
    split
    · exact h
    · exact (h.insertResult (hcsv d hp) _).emit (hcsv d hp) _ _

theorem Kept.relinkResult (h : Kept host addressed (some link) mid)
    (hlink : ∀ target, mid.target? link = some target → addressed target) (id : Int64) :
    Kept host addressed (some link) (mid.relinkResult link id).1 := by
  unfold Host.relinkResult
  cases hl : mid.links.find? link with
  | none => exact h
  | some l =>
    have hold : addressed l.target := hlink _ (by rw [target?, hl]; rfl)
    obtain ⟨previous | previous, owner⟩ := l
    · exact (h.attach _).emitTo _
    · exact ((h.modifyResult hold (·.forget link)).attach _).emitTo _

/-- Those who are told that their samples are there are attached to the result. -/
theorem commitResult_kept (hlinks : host.links.Increasing) (haccounted : host.Accounted) (hid : addressed (.result id))
    (samples : List Int64) : Kept host addressed acting (host.commitResult id samples).1 := by
  unfold Host.commitResult
  cases hr : host.results.find? id with
  | none => exact .refl hlinks
  | some r =>
    dsimp only
    rw [tell_requests_eq, Result.append_eq]
    refine (((Kept.refl hlinks).insertResult hid _).emit hid _ _).append fun e he => .inr ⟨_, hid, ?_⟩
    obtain ⟨q, hq, rfl⟩ := List.mem_map.mp he
    exact (haccounted id r hr).attached q (List.mem_filter.mp hq).1

theorem Kept.clearResult (h : Kept host addressed acting mid) (hid : addressed (.result id)) :
    Kept host addressed acting (mid.clearResult id).1 := by
  unfold Host.clearResult
  cases mid.results.find? id with
  | none => exact h
  | some r => exact (h.emit hid _ _).insertResult hid _

theorem Kept.requestRange (h : Kept host addressed acting mid)
    (hlink : ∀ target, mid.target? link = some target → addressed target) (offset size : Int64) :
    Kept host addressed acting (mid.requestRange link offset size).1 := by
  unfold Host.requestRange
  split
  · exact h
  · split
    · rename_i id htarget
      cases mid.results.find? id with
      | none => exact h
      | some r =>
        dsimp only
        split
        · exact h
        · exact h.insertResult (hlink _ htarget) _
    · exact h

theorem Kept.unlink (h : Kept host addressed (some link) mid)
    (hlink : ∀ target, mid.target? link = some target → addressed target) :
    Kept host addressed (some link) (mid.unlink link) := by
  unfold Host.unlink
  cases hl : mid.links.find? link with
  | none => exact h
  | some l =>
    have hold : addressed l.target := hlink _ (by rw [target?, hl]; rfl)
    obtain ⟨id | id, _ | _⟩ := l
    · exact h.detach
    · exact h.detach.removeVariable hold
    · exact h.detach.modifyResult hold _
    · exact h.detach.modifyResult hold _

/-! ## Disciplined hosts -/

theorem Disciplined.reachable (h : host.Disciplined) : host.Reachable := by
  induction h with
  | empty => exact .empty
  | step op _ _ ih => exact .step op ih

theorem relinkVariable_results (link : Nat) (id : Int64) : (host.relinkVariable link id).1.results = host.results := by
  unfold relinkVariable
  cases host.links.find? link with
  | none => rfl
  | some old =>
    obtain ⟨previous | _, owner⟩ := old
    · dsimp only
      split <;> rfl
    · rfl

theorem redefineVariable_results (link : Nat) (csv : String) :
    (host.redefineVariable link csv).1.results = host.results := by
  have h := redefineVariable_cases host link csv
  generalize host.redefineVariable link csv = r at h ⊢
  cases h <;> rfl

/-- A link that was attached to no result takes no requests along. -/
theorem Kept.resultStep (h : Kept host (fun _ => True) (some link) mid) (hresults : mid.results = host.results)
    (hlink : ∀ id, host.target? link ≠ some (.result id)) : ResultStep host mid :=
  .kept hresults (stays_unless (fun other hne => h.links other fun he => hne (Option.some_inj.mp he).symm) none
    (.inr hlink))

end Host

namespace HostOperation

open Host

variable {host : Host} {op : HostOperation} {link : Nat}

theorem Suits.resultStep (hop : op.Suits host) (hnumbered : host.Numbered) (hlinks : host.links.Increasing) :
    ResultStep host (op.after host) := by
  cases hmoves : op.movesToVariable with
  | false => exact after_resultStep hnumbered op hmoves
  | true =>
    have hrefl : ∀ link, Kept host (fun _ => True) (some link) host := fun _ => .refl hlinks
    cases op <;> simp only [movesToVariable, reduceCtorEq] at hmoves <;> rw [Suits] at hop <;> rw [after]
    case relinkVariable link id =>
      exact ((hrefl link).relinkVariable (fun _ _ => trivial) id).resultStep (relinkVariable_results link id) hop
    case redefineVariable link csv =>
      exact ((hrefl link).redefineVariable (fun _ _ => trivial) fun _ _ => trivial).resultStep
        (redefineVariable_results link csv) hop

/-- Suitable operations leave a link with the kind of target that it was made for. -/
theorem Suits.kind_kept (hop : op.Suits host) (hnumbered : host.Numbered) {before now : LinkTarget}
    (hbefore : host.target? link = some before) (hnow : (op.after host).target? link = some now) :
    now.isVariable = before.isVariable := by
  obtain ⟨owner, hlink⟩ := target_eq_some hbefore
  by_cases htouched : ∃ l, op.attaches? host = some (link, l)
  · obtain ⟨l, hattaches⟩ := htouched
    rw [target?, find_touched hattaches] at hnow
    have hmade : link ≠ host.lastLink + 1 := by
      have := hnumbered link _ hlink
      omega
    cases op <;>
      simp only [attaches?, reduceCtorEq, Option.map_eq_some_iff, Option.some_inj, Prod.mk.injEq] at hattaches
    case exportVariable | importVariable | linkResult => grind
    case relinkVariable | redefineVariable | relinkResult =>
      obtain ⟨_, -, rfl, rfl⟩ := hattaches
      obtain rfl := Option.some_inj.mp hnow
      cases before <;> simp_all [Suits, LinkTarget.isVariable]
    case unlink => grind
  · have hkept : (op.after host).links.find? link = host.links.find? link :=
      find_untouched fun l hl => htouched ⟨l, hl⟩
    rw [target?, hkept] at hnow
    rw [Option.some_inj.mp (hnow.symm.trans hbefore)]

end HostOperation

namespace Host

variable {host : Host}

theorem Disciplined.accounted (h : host.Disciplined) : host.Numbered ∧ host.Accounted := by
  induction h with
  | empty => exact ⟨(fun _ _ hl => nomatch hl), (fun _ _ hr => nomatch hr)⟩
  | step op hop hprevious ih =>
    have hstep : ResultStep _ _ := hop.resultStep ih.1 hprevious.reachable.sound.links
    exact ⟨HostOperation.numbered_after ih.1 op, ih.2.step hstep⟩

/-! ## Requests of others -/

end Host

/-- The requests of links that do not act. -/
def Result.requestsBeside (r : Result) (acting : Option Nat) : List Request :=
  r.pending.filter fun q => acting ≠ some q.link

theorem Result.requestsBeside_ask (r : Result) (q : Request) :
    (r.ask q).requestsBeside (some q.link) = r.requestsBeside (some q.link) := by
  unfold ask
  split
  · rfl
  · simp [requestsBeside]

theorem Result.requestsBeside_forget (r : Result) (link : Nat) :
    (r.forget link).requestsBeside (some link) = r.requestsBeside (some link) := by
  simp only [requestsBeside, forget, List.filter_filter]
  exact List.filter_congr fun q _ => by simp [eq_comm]

namespace Host

variable {host host' : Host} {acting : Option Nat} {link : Nat} {id x : Int64} {csv : String}

/-- At a result, the requests of links that do not act are still pending. -/
def Waits (host : Host) (acting : Option Nat) (host' : Host) (x : Int64) : Prop :=
  ∀ r, host.results.find? x = some r →
    ∃ s, host'.results.find? x = some s ∧ s.requestsBeside acting = r.requestsBeside acting

theorem Waits.of_results (h : host'.results = host.results) : Waits host acting host' x :=
  fun r hr => ⟨r, h ▸ hr, rfl⟩

theorem Waits.insert {s : Result} (h : host'.results = host.results.insert id s)
    (hs : ∀ r, host.results.find? id = some r → s.requestsBeside acting = r.requestsBeside acting) :
    Waits host acting host' x := by
  intro r hr
  rw [h, Directory.find_insert]
  split
  · rename_i hx
    exact ⟨s, rfl, hs r (hx ▸ hr)⟩
  · exact ⟨r, hr, rfl⟩

theorem Waits.forget (h : host'.results = host.results.modify id (·.forget link)) :
    Waits host (some link) host' x := by
  intro r hr
  rw [h, Directory.find_modify, hr]
  refine ⟨_, rfl, ?_⟩
  split
  · exact r.requestsBeside_forget link
  · rfl

theorem VariablesOnly.waits (h : VariablesOnly host host') : Waits host acting host' x := by
  obtain ⟨_, _, rfl⟩ := h
  exact .of_results rfl

theorem exportVariable_cases (csv : String) :
    (host.exportVariable csv).1 = (host.defineVariable csv).1 ∨
      ∃ id, (host.exportVariable csv).1 = ((host.defineVariable csv).1.addLink (.variable id) true).1 := by
  unfold exportVariable
  split <;> rename_i hd <;> rw [hd]
  · exact .inl rfl
  · exact .inr ⟨_, rfl⟩

theorem exportVariable_results (csv : String) : (host.exportVariable csv).1.results = host.results := by
  obtain ⟨vars, queue, hdefine⟩ : VariablesOnly host (host.defineVariable csv).1 := defineVariable_variables csv
  rcases @exportVariable_cases host csv with h | ⟨id, h⟩ <;> rw [h, hdefine]
  rfl

theorem defineResult_waits (csv : String) : Waits host acting (host.defineResult csv).1 x := by
  unfold defineResult
  cases ResultDefinition.parse csv with
  | error e => exact .of_results rfl
  | ok d =>
    dsimp only
    split
    · exact .of_results rfl
    · rename_i hfree
      have hnone : host.results.find? d.id = none := by simpa [Directory.contains] using hfree
      exact .insert rfl fun r hr => by rw [hnone] at hr; cases hr

theorem relinkResult_waits (link : Nat) (id : Int64) : Waits host (some link) (host.relinkResult link id).1 x := by
  unfold relinkResult
  rcases host.links.find? link with _ | ⟨previous | previous, owner⟩
  · exact .of_results rfl
  · exact .of_results rfl
  · exact .forget rfl

/-- Requests at one result are not answered by samples of another. -/
theorem commitResult_waits (samples : List Int64) (hne : x ≠ id) :
    Waits host acting (host.commitResult id samples).1 x := by
  unfold commitResult
  cases host.results.find? id with
  | none => exact .of_results rfl
  | some r =>
    dsimp only
    rw [tell_requests_eq]
    exact fun s hs => ⟨s, (Directory.find_insert_ne _ hne _).trans hs, rfl⟩

theorem clearResult_waits (id : Int64) : Waits host acting (host.clearResult id).1 x := by
  unfold clearResult
  cases hr : host.results.find? id with
  | none => exact .of_results rfl
  | some r => exact .insert rfl fun r' hr' => by rw [hr] at hr'; exact Option.some_inj.mp hr' ▸ rfl

theorem requestRange_waits (link : Nat) (offset size : Int64) :
    Waits host (some link) (host.requestRange link offset size).1 x := by
  unfold requestRange
  split
  · exact .of_results rfl
  · split
    · rename_i id _
      cases hr : host.results.find? id with
      | none => exact .of_results rfl
      | some r =>
        dsimp only
        split
        · exact .of_results rfl
        · refine .insert rfl fun r' hr' => ?_
          rw [hr] at hr'
          exact Option.some_inj.mp hr' ▸ r.requestsBeside_ask ⟨link, _, _⟩
    · exact .of_results rfl

theorem unlink_waits (link : Nat) : Waits host (some link) (host.unlink link) x := by
  unfold unlink
  rcases host.links.find? link with _ | ⟨id | id, _ | _⟩
  · exact .of_results rfl
  · exact .of_results rfl
  · exact (@removeVariable_variables { host with links := host.links.erase link } id).waits
  · exact .forget rfl
  · exact .forget rfl

end Host

namespace HostOperation

open Host

variable {host : Host}

/-- Requests are answered where samples are added, and nowhere else is a link made to forget what it asked for
but by itself. -/
theorem after_waits (op : HostOperation) {x : Int64} (hop : ∀ samples, op ≠ commitResult x samples) :
    Waits host op.link? (op.after host) x := by
  cases op <;> simp only [link?, after]
  case defineVariable csv => exact (defineVariable_variables csv).waits
  case exportVariable csv => exact .of_results (exportVariable_results csv)
  case importVariable id => exact .of_results rfl
  case removeVariable id => exact (removeVariable_variables id).waits
  case relinkVariable link id => exact .of_results (relinkVariable_results link id)
  case redefineVariable link csv => exact .of_results (redefineVariable_results link csv)
  case setVariable link v skipSelf => exact (setVariable_stores link v skipSelf).inVars.waits
  case setVariableValue id v => exact (storeVariable_stores id v none).inVars.waits
  case updateFlags link flags skipSelf => exact (updateFlags_stores link flags skipSelf).inVars.waits
  case setVariableFlags id flags => exact (storeFlags_stores id flags none).inVars.waits
  case defineResult csv => exact defineResult_waits csv
  case linkResult id => exact .of_results rfl
  case relinkResult link id => exact relinkResult_waits link id
  case commitResult id samples => exact commitResult_waits samples fun he => hop samples (he ▸ rfl)
  case clearResult id => exact clearResult_waits id
  case requestRange link offset size => exact requestRange_waits link offset size
  case unlink link => exact unlink_waits link
  case takeEvents => exact .of_results rfl

/-! ## Frames of operations -/

/-- What an operation leaves alone: the variables and results that it does not address, the links that it does not
act through, and the events before its own, which are for its link or for links to what it addresses. -/
structure Spares (host : Host) (op : HostOperation) : Prop where
  vars : ∀ x, ¬op.Addresses host (.variable x) → (op.after host).vars.find? x = host.vars.find? x
  results : ∀ x, ¬op.Addresses host (.result x) → (op.after host).results.find? x = host.results.find? x
  requests : ∀ x, (∀ samples, op ≠ commitResult x samples) → Waits host op.link? (op.after host) x
  links : ∀ link l, host.links.find? link = some l → op.link? ≠ some link → (op.after host).links.find? link = some l
  events : ∃ new, (op.after host).queue = host.queue ++ new ∧
    ∀ e ∈ new, op.link? = some e.link ∨ ∃ target, op.Addresses host target ∧ host.target? e.link = some target

theorem Spares.of_kept {op : HostOperation} (h : Kept host (op.Addresses host) op.link? (op.after host)) :
    op.Spares host :=
  ⟨h.vars, h.results, fun _ => op.after_waits, fun link _ hl hne => (h.links link hne).trans hl, h.queue⟩

/-- A link that is made takes the place of no other, and is told nothing yet. -/
theorem Spares.of_made {op : HostOperation} {mid : Host} (hnumbered : host.Numbered)
    (h : Kept host (op.Addresses host) op.link? mid) (hlast : mid.lastLink = host.lastLink) {target : LinkTarget}
    {owner : Bool} (hafter : op.after host = (mid.addLink target owner).1) : op.Spares host := by
  have hlinks : ∀ link l, host.links.find? link = some l → op.link? ≠ some link →
      (mid.addLink target owner).1.links.find? link = some l := by
    intro link l hl hacting
    have hne : link ≠ mid.lastLink + 1 := by
      have := hnumbered link l hl
      omega
    exact (Directory.find_insert_ne _ hne _).trans ((h.links link hacting).trans hl)
  rw [← hafter] at hlinks
  refine ⟨?_, ?_, fun _ => op.after_waits, hlinks, ?_⟩ <;> rw [hafter]
  · exact h.vars
  · exact h.results
  · exact h.queue

theorem exportVariable_spares (hnumbered : host.Numbered) (hlinks : host.links.Increasing) (csv : String) :
    (exportVariable csv).Spares host := by
  have hdefine : Kept host ((exportVariable csv).Addresses host) (exportVariable csv).link?
      (host.defineVariable csv).1 :=
    (Kept.refl hlinks).defineVariable fun d hp => .inl (by rw [named?, hp]; rfl)
  obtain ⟨vars, queue, hvars⟩ : VariablesOnly host (host.defineVariable csv).1 := defineVariable_variables csv
  have hlast : (host.defineVariable csv).1.lastLink = host.lastLink := by rw [hvars]
  rcases @exportVariable_cases host csv with hafter | ⟨id, hafter⟩
  · rw [← hafter] at hdefine
    exact .of_kept hdefine
  · exact .of_made hnumbered hdefine hlast hafter

/-- Nothing of a host is touched by accident. In every host that suitable operations lead to, an operation leaves
all variables and results alone but those that it addresses, and all links but the one that it acts through;
other links lose requests only where samples are added; and its events are put behind those that are there, each
for the link that acts or for a link that is attached to what is addressed. -/
theorem others_spared (host : Host) (h : host.Disciplined) (op : HostOperation) (hop : op ≠ .takeEvents) :
    op.Spares host := by
  have hlinks : host.links.Increasing := h.reachable.sound.links
  obtain ⟨hnumbered, haccounted⟩ := h.accounted
  have hkept : ∀ {addressed acting}, Kept host addressed acting host := .refl hlinks
  cases op
  case defineVariable csv =>
    exact .of_kept (hkept.defineVariable fun d hp => .inl (by rw [named?, hp]; rfl))
  case exportVariable csv => exact exportVariable_spares hnumbered hlinks csv
  case importVariable id => exact .of_made hnumbered hkept rfl rfl
  case removeVariable id => exact .of_kept (hkept.removeVariable (.inl rfl))
  case relinkVariable link id => exact .of_kept (hkept.relinkVariable (fun _ ht => .inr ⟨link, rfl, ht⟩) id)
  case redefineVariable link csv =>
    exact .of_kept (hkept.redefineVariable (fun _ ht => .inr ⟨link, rfl, ht⟩)
      fun d hp => .inl (by rw [named?, hp]; rfl))
  case setVariable link v skipSelf =>
    exact .of_kept (hkept.setVariable (fun _ ht => .inr ⟨link, rfl, ht⟩) v skipSelf)
  case setVariableValue id v => exact .of_kept (hkept.storeVariable (.inl rfl) v none)
  case updateFlags link flags skipSelf =>
    exact .of_kept (hkept.updateFlags (fun _ ht => .inr ⟨link, rfl, ht⟩) flags skipSelf)
  case setVariableFlags id flags => exact .of_kept (hkept.storeFlags (.inl rfl) flags none)
  case defineResult csv => exact .of_kept (hkept.defineResult fun d hp => .inl (by rw [named?, hp]; rfl))
  case linkResult id => exact .of_made hnumbered hkept rfl rfl
  case relinkResult link id => exact .of_kept (hkept.relinkResult (fun _ ht => .inr ⟨link, rfl, ht⟩) id)
  case commitResult id samples => exact .of_kept (commitResult_kept hlinks haccounted (.inl rfl) samples)
  case clearResult id => exact .of_kept (hkept.clearResult (.inl rfl))
  case requestRange link offset size =>
    exact .of_kept (hkept.requestRange (fun _ ht => .inr ⟨link, rfl, ht⟩) offset size)
  case unlink link => exact .of_kept (hkept.unlink fun _ ht => .inr ⟨link, rfl, ht⟩)
  case takeEvents => exact absurd rfl hop

/-- A link that owns a variable goes, while another waits for samples of a result: the other link to the variable is
told, and the result keeps the request. -/
theorem unlinked_owner_spares :
    let host := [.exportVariable "2,b", .importVariable 2, .defineResult "32,Scan,S,,INT32", .linkResult 32,
      .requestRange 3 0 2, .takeEvents].foldl after .empty
    host.Disciplined ∧ (unlink 1).Spares host ∧ host.vars.contains 2 = true ∧
      ((unlink 1).after host).vars.contains 2 = false ∧ ((unlink 1).after host).queue = [⟨2, .idChanged⟩] ∧
      (((unlink 1).after host).results.find? 32).map (·.pending) = some [⟨3, 0, 2⟩] := by
  intro host
  have hdisciplined : host.Disciplined := by
    refine .step .takeEvents trivial <| .step (.requestRange 3 0 2) (fun id => ?_) <|
      .step (.linkResult 32) trivial <| .step (.defineResult "32,Scan,S,,INT32") trivial <|
      .step (.importVariable 2) trivial <| .step (.exportVariable "2,b") trivial .empty
    rw [show target? _ 3 = some (.result 32) by decide +kernel]
    nofun
  exact ⟨hdisciplined, others_spared host hdisciplined (.unlink 1) nofun, by decide +kernel, by decide +kernel,
    by decide +kernel, by decide +kernel⟩

end HostOperation

end HostScript
