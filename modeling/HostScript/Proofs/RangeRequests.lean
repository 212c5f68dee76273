import HostScript.Proofs.HostLinks
/-!
# Requests for ranges

Requests are held by the results, and the links that made them by the host. What an operation does to the
results is said once: it defines one, adds samples to one, empties one or notes a request, or a link leaves one
with its requests. So as long as links that are attached to results stay with results, every request that is
pending comes from a link at its result and waits for samples that are not there, and no other is the same.
When samples come, each request that they complete is answered once.
-/

set_option autoImplicit false

namespace HostScript

theorem Directory.find_modify {κ α : Type} [DecidableEq κ] (d : Directory κ α) (key k : κ) (f : α → α) :
    (d.modify key f).find? k = (d.find? k).map fun a => if k = key then f a else a := by
  obtain ⟨entries⟩ := d
  induction entries with
  | nil => rfl
  | cons e entries ih =>
    change find? ⟨(e.1, if e.1 = key then f e.2 else e.2) :: entries.map _⟩ k = _
    rw [find_cons, find_cons]
    by_cases he : e.1 = k
    · simp [he]
    · simpa [he, modify] using ih

/-! ## The requests of one result -/

namespace Result

variable {r : Result} {here : Nat → Prop}

/-- The requests differ from each other, come from links that are attached here and wait for missing samples. -/
structure Accounted (r : Result) (here : Nat → Prop) : Prop where
  distinct : r.pending.Nodup
  attached : ∀ q ∈ r.pending, here q.link
  missing : ∀ q ∈ r.pending, r.covers q.offset q.size = false

theorem covers_iff {offset size : Nat} : r.covers offset size = true ↔ offset + size ≤ r.count := decide_eq_true_iff

theorem covers_eq_false {offset size : Nat} : r.covers offset size = false ↔ r.count < offset + size := by
  rw [← Bool.not_eq_true, covers_iff, Nat.not_le]

theorem accounted_ofDefinition (d : ResultDefinition) : (ofDefinition d).Accounted here :=
  ⟨.nil, by simp [ofDefinition], by simp [ofDefinition]⟩

/-- More samples, and the requests among the pending ones that they complete. -/
theorem append_eq (r : Result) (samples : List Int64) :
    r.append samples =
      ({ r with
          samples := r.samples ++ samples
          pending := r.pending.filter fun q => !decide (q.offset + q.size ≤ r.count + samples.length) },
        r.pending.filter fun q => q.offset + q.size ≤ r.count + samples.length) := by
  have hcovers : ∀ q : Request, ({ r with samples := r.samples ++ samples } : Result).covers q.offset q.size =
      decide (q.offset + q.size ≤ r.count + samples.length) := fun q => decide_eq_decide.mpr (by simp [count])
  simp only [append, List.partition_eq_filter_filter, Function.comp_def, hcovers]

theorem Accounted.append (h : r.Accounted here) (samples : List Int64) : (r.append samples).1.Accounted here := by
  rw [append_eq]
  refine ⟨h.distinct.filter _, fun q hq => h.attached q (List.mem_filter.mp hq).1, fun q hq => ?_⟩
  have hlate : ¬q.offset + q.size ≤ r.count + samples.length := by simpa using (List.mem_filter.mp hq).2
  rw [covers_eq_false, count, List.length_append]
  exact Nat.lt_of_not_le hlate

/-- What is missing in some samples is missing in none. -/
theorem Accounted.clear (h : r.Accounted here) : r.clear.Accounted here := by
  refine ⟨h.distinct, h.attached, fun q hq => ?_⟩
  have hmissing : r.count < q.offset + q.size := covers_eq_false.mp (h.missing q hq)
  exact covers_eq_false.mpr (Nat.lt_of_le_of_lt (Nat.zero_le _) hmissing)

theorem Accounted.ask (h : r.Accounted here) {q : Request} (hq : here q.link)
    (hmissing : r.covers q.offset q.size = false) : (r.ask q).Accounted here := by
  unfold Result.ask
  split
  · exact h
  · rename_i hnew
    have hnew : q ∉ r.pending := by simpa using hnew
    refine ⟨?_, fun p hp => ?_, fun p hp => ?_⟩
    · exact List.nodup_append.mpr ⟨h.distinct, List.pairwise_singleton _ q, fun p hp p' hp' he =>
        hnew (List.mem_singleton.mp hp' ▸ he ▸ hp)⟩
    · rcases List.mem_append.mp hp with hp | hp
      · exact h.attached p hp
      · exact List.mem_singleton.mp hp ▸ hq
    · rcases List.mem_append.mp hp with hp | hp
      · exact h.missing p hp
      · exact List.mem_singleton.mp hp ▸ hmissing

/-- Who is attached elsewhere may stay there. -/
theorem Accounted.mono (h : r.Accounted here) {there : Nat → Prop} (hthere : ∀ link, here link → there link) :
    r.Accounted there := ⟨h.distinct, fun q hq => hthere _ (h.attached q hq), h.missing⟩

/-- A link leaves with its requests. -/
theorem Accounted.forget (h : r.Accounted here) {link : Nat} {there : Nat → Prop}
    (hthere : ∀ other, other ≠ link → here other → there other) : (r.forget link).Accounted there := by
  refine ⟨h.distinct.filter _, fun q hq => ?_, fun q hq => h.missing q (List.mem_filter.mp hq).1⟩
  obtain ⟨hq, hother⟩ := List.mem_filter.mp hq
  exact hthere _ (by simpa using hother) (h.attached q hq)

end Result

namespace Host

variable {host host' : Host} {id : Int64} {link : Nat}

/-! ## Steps -/

/-- What is attached to a result stays there, but for a link that leaves. -/
def StaysAtResults (host host' : Host) (leaving : Option Nat) : Prop :=
  ∀ link id, leaving ≠ some link → host.target? link = some (.result id) → host'.target? link = some (.result id)

/-- What becomes of the results. -/
inductive ResultStep (host host' : Host) : Prop
  | kept : host'.results = host.results → StaysAtResults host host' none → ResultStep host host'
  | defines (d : ResultDefinition) : host'.results = host.results.insert d.id (.ofDefinition d) →
    host'.links = host.links → ResultStep host host'
  | adds (id : Int64) (r : Result) (samples : List Int64) : host.results.find? id = some r →
    host'.results = host.results.insert id (r.append samples).1 → host'.links = host.links → ResultStep host host'
  | empties (id : Int64) (r : Result) : host.results.find? id = some r →
    host'.results = host.results.insert id r.clear → host'.links = host.links → ResultStep host host'
  | asks (id : Int64) (r : Result) (q : Request) : host.results.find? id = some r →
    host.target? q.link = some (.result id) → r.covers q.offset q.size = false →
    host'.results = host.results.insert id (r.ask q) → host'.links = host.links → ResultStep host host'
  | leaves (id : Int64) (link : Nat) : host.target? link = some (.result id) →
    host'.results = host.results.modify id (·.forget link) → StaysAtResults host host' (some link) →
    ResultStep host host'

theorem StaysAtResults.of_links (h : host'.links = host.links) (leaving : Option Nat) :
    StaysAtResults host host' leaving := by
  intro link id _ hlink
  rwa [target?, h]

theorem ResultStep.unchanged : ResultStep host host := .kept rfl (.of_links rfl none)

theorem VariablesOnly.resultStep (h : VariablesOnly host host') : ResultStep host host' := by
  obtain ⟨vars, queue, rfl⟩ := h
  exact .kept rfl (.of_links rfl none)

/-- A new link takes no place that another one has. -/
theorem stays_made (h : host.Numbered) {l : HostLink} (hl : host'.links = host.links.insert (host.lastLink + 1) l) :
    StaysAtResults host host' none := by
  intro link id _ hlink
  have hne : link ≠ host.lastLink + 1 := by
    rintro rfl
    rw [target?, h.fresh] at hlink
    cases hlink
  rwa [target?, hl, Directory.find_insert_ne _ hne]

/-- A link that is attached to no result may be removed or attached elsewhere. -/
theorem stays_unless {other : Nat} (hlinks : ∀ link, link ≠ other → host'.links.find? link = host.links.find? link)
    (leaving : Option Nat) (hleaving : leaving = some other ∨ ∀ id, host.target? other ≠ some (.result id)) :
    StaysAtResults host host' leaving := by
  intro link id hstays hlink
  have hne : link ≠ other := by
    rintro rfl
    exact hleaving.elim (fun h => hstays h) fun h => h id hlink
  rwa [target?, hlinks link hne]

theorem exportVariable_resultStep (h : host.Numbered) (csv : String) :
    ResultStep host (host.exportVariable csv).1 := by
  obtain ⟨vars, queue, hdefine⟩ : VariablesOnly host (host.defineVariable csv).1 := defineVariable_variables csv
  unfold exportVariable
  split
  · rename_i hd
    rw [hd] at hdefine
    obtain rfl := hdefine
    exact .kept rfl (.of_links rfl none)
  · rename_i hd
    rw [hd] at hdefine
    obtain rfl := hdefine
    exact .kept rfl (stays_made h rfl)

theorem defineResult_resultStep (csv : String) : ResultStep host (host.defineResult csv).1 := by
  unfold defineResult
  cases ResultDefinition.parse csv with
  | error e => exact .unchanged
  | ok d =>
    dsimp only
    split
    · exact .unchanged
    · exact .defines d rfl rfl

theorem relinkResult_resultStep (link : Nat) (id : Int64) : ResultStep host (host.relinkResult link id).1 := by
  unfold relinkResult
  cases hl : host.links.find? link with
  | none => exact .unchanged
  | some l =>
    have hothers : ∀ other, other ≠ link →
        (host.links.insert link { l with target := .result id }).find? other = host.links.find? other :=
      fun other hne => Directory.find_insert_ne _ hne _
    obtain ⟨previous | previous, owner⟩ := l
    · exact .kept rfl (stays_unless hothers none (.inr fun id => by simp [target?, hl]))
    · exact .leaves previous link (by simp [target?, hl]) rfl (stays_unless hothers _ (.inl rfl))

theorem commitResult_resultStep (id : Int64) (samples : List Int64) :
    ResultStep host (host.commitResult id samples).1 := by
  unfold commitResult
  cases hr : host.results.find? id with
  | none => exact .unchanged
  | some r =>
    dsimp only
    rw [tell_requests_eq]
    exact .adds id r samples hr rfl rfl

theorem clearResult_resultStep (id : Int64) : ResultStep host (host.clearResult id).1 := by
  unfold clearResult
  cases hr : host.results.find? id with
  | none => exact .unchanged
  | some r => exact .empties id r hr rfl rfl

theorem requestRange_resultStep (link : Nat) (offset size : Int64) :
    ResultStep host (host.requestRange link offset size).1 := by
  unfold requestRange
  split
  · exact .unchanged
  · split
    · rename_i id htarget
      cases hr : host.results.find? id with
      | none => exact .unchanged
      | some r =>
        dsimp only
        split
        · exact .unchanged
        · rename_i hmissing
          exact .asks id r ⟨link, _, _⟩ hr htarget (by simpa using hmissing) rfl rfl
    · exact .unchanged

theorem unlink_resultStep (link : Nat) : ResultStep host (host.unlink link) := by
  have hothers : ∀ other, other ≠ link → (host.links.erase link).find? other = host.links.find? other :=
    fun other hne => Directory.find_erase_ne _ hne
  unfold unlink
  cases hl : host.links.find? link with
  | none => exact .unchanged
  | some l =>
    obtain ⟨id | id, _ | _⟩ := l
    · exact .kept rfl (stays_unless hothers none (.inr fun id => by simp [target?, hl]))
    · obtain ⟨vars, queue, hremove⟩ := @removeVariable_variables { host with links := host.links.erase link } id
      simp only [if_true]
      rw [hremove]
      exact .kept rfl (stays_unless hothers none (.inr fun id => by simp [target?, hl]))
    · exact .leaves id link (by simp [target?, hl]) rfl (stays_unless hothers _ (.inl rfl))
    · exact .leaves id link (by simp [target?, hl]) rfl (stays_unless hothers _ (.inl rfl))

end Host

namespace HostOperation

open Host

/-- A link that is there, to a result perhaps, is attached to a variable. -/
def movesToVariable : HostOperation → Bool
  | relinkVariable _ _ | redefineVariable _ _ => true
  | _ => false

theorem after_resultStep {host : Host} (h : host.Numbered) (op : HostOperation) (hop : op.movesToVariable = false) :
    ResultStep host (op.after host) := by
  cases op with
  | relinkVariable link id => cases hop
  | redefineVariable link csv => cases hop
  | defineVariable csv => exact (defineVariable_variables csv).resultStep
  | exportVariable csv => exact exportVariable_resultStep h csv
  | importVariable id => exact .kept rfl (stays_made h rfl)
  | removeVariable id => exact (removeVariable_variables id).resultStep
  | setVariable link v skipSelf => exact (setVariable_stores link v skipSelf).inVars.resultStep
  | setVariableValue id v => exact (storeVariable_stores id v none).inVars.resultStep
  | updateFlags link flags skipSelf => exact (updateFlags_stores link flags skipSelf).inVars.resultStep
  | setVariableFlags id flags => exact (storeFlags_stores id flags none).inVars.resultStep
  | defineResult csv => exact defineResult_resultStep csv
  | linkResult id => exact .kept rfl (stays_made h rfl)
  | relinkResult link id => exact relinkResult_resultStep link id
  | commitResult id samples => exact commitResult_resultStep id samples
  | clearResult id => exact clearResult_resultStep id
  | requestRange link offset size => exact requestRange_resultStep link offset size
  | unlink link => exact unlink_resultStep link
  | takeEvents => exact .kept rfl (.of_links rfl none)

end HostOperation

namespace Host

variable {host host' : Host} {id : Int64} {link : Nat}

/-! ## Requests are kept -/

/-- Every pending request is unlike the others, comes from a link at its result and waits for missing samples. -/
def Accounted (host : Host) : Prop :=
  ∀ id r, host.results.find? id = some r → r.Accounted fun link => host.target? link = some (.result id)

/-- A result changes and the links do not. -/
theorem Accounted.insert (h : host.Accounted) {r : Result} (hresults : host'.results = host.results.insert id r)
    (hlinks : host'.links = host.links) (hr : r.Accounted fun link => host.target? link = some (.result id)) :
    host'.Accounted := by
  intro x s hs
  have htargets : host'.target? = host.target? := by
    funext link
    rw [target?, target?, hlinks]
  rw [htargets]
  rw [hresults, Directory.find_insert] at hs
  split at hs
  · rename_i hx
    exact hx ▸ Option.some_inj.mp hs ▸ hr
  · exact h x s hs

theorem Accounted.step (h : host.Accounted) (hs : ResultStep host host') : host'.Accounted := by
  cases hs with
  | kept hresults hstays =>
    intro id r hr
    exact (h id r (hresults ▸ hr)).mono fun link => hstays link id (by simp)
  | defines d hresults hlinks => exact h.insert hresults hlinks (Result.accounted_ofDefinition d)
  | adds id r samples hr hresults hlinks => exact h.insert hresults hlinks ((h id r hr).append samples)
  | empties id r hr hresults hlinks => exact h.insert hresults hlinks (h id r hr).clear
  | asks id r q hr htarget hmissing hresults hlinks =>
    exact h.insert hresults hlinks ((h id r hr).ask htarget hmissing)
  | leaves id link htarget hresults hstays =>
    intro x s hs
    rw [hresults, Directory.find_modify] at hs
    obtain ⟨r, hr, rfl⟩ := Option.map_eq_some_iff.mp hs
    have hothers : ∀ other, other ≠ link → host.target? other = some (.result x) →
        host'.target? other = some (.result x) :=
      fun other hne => hstays other x fun he => hne (Option.some_inj.mp he).symm
    split
    · exact (h x r hr).forget hothers
    · -- the link that leaves is attached to the other result
      rename_i hx
      refine (h x r hr).mono fun other hother => hothers other ?_ hother
      rintro rfl
      exact hx (LinkTarget.result.inj (Option.some_inj.mp (hother.symm.trans htarget)))

/-- The hosts that operations lead to as long as no link to a result is attached to a variable. -/
inductive Served : Host → Prop
  | empty : Served .empty
  | step {host : Host} (op : HostOperation) : op.movesToVariable = false → Served host → Served (op.after host)

theorem Served.accounted (h : host.Served) : host.Numbered ∧ host.Accounted := by
  induction h with
  | empty => exact ⟨(fun _ _ hl => nomatch hl), (fun _ _ hr => nomatch hr)⟩
  | step op hop _ ih => exact ⟨HostOperation.numbered_after ih.1 op, ih.2.step (op.after_resultStep ih.1 hop)⟩

/-! ## Requests are answered -/

/-- Samples are added to a result: the requests that they complete are taken out, and for each of them its link is
told once. -/
structure Delivers (host host' : Host) (id : Int64) (r : Result) (samples : List Int64) : Prop where
  result : host'.results = host.results.insert id
    { r with
      samples := r.samples ++ samples
      pending := r.pending.filter fun q => !decide (q.offset + q.size ≤ r.count + samples.length) }
  links : host'.links = host.links
  told : ∃ new, host'.queue = host.queue ++ new ∧
    new.filter (·.event = .gotRange) =
      (r.pending.filter fun q => q.offset + q.size ≤ r.count + samples.length).map fun q => ⟨q.link, .gotRange⟩

theorem commitResult_delivers {r : Result} (hr : host.results.find? id = some r) (samples : List Int64) :
    Delivers host (host.commitResult id samples).1 id r samples := by
  unfold commitResult
  rw [hr]
  dsimp only
  rw [tell_requests_eq, Result.append_eq]
  refine ⟨rfl, rfl, _, List.append_assoc _ _ _, ?_⟩
  rw [List.filter_append]
  simp [List.filter_map, Function.comp_def]

/-- However clients ask, leave, change to other results, empty results or add samples: in every host the pending
requests of a result differ from each other, come from links that are attached to the result and wait for
samples that are missing; and adding samples answers exactly the requests that are complete then, once each. -/
theorem requests_accounted (host : Host) (h : host.Served) :
    host.Accounted ∧
      ∀ id r samples, host.results.find? id = some r →
        Delivers host ((HostOperation.commitResult id samples).after host) id r samples :=
  ⟨h.accounted.2, fun _ _ samples hr => commitResult_delivers hr samples⟩

/-- One link asks for two samples, and another one for three; two samples come. -/
theorem scan_accounted :
    let host := [.defineResult "32,Scan,S,,INT32", .linkResult 32, .linkResult 32, .requestRange 1 0 2,
      .requestRange 2 0 3].foldl HostOperation.after .empty
    host.Served ∧ host.Accounted ∧
      (host.results.find? 32).map (·.pending) = some [⟨1, 0, 2⟩, ⟨2, 0, 3⟩] ∧
      (((HostOperation.commitResult 32 [7, 8]).after host).results.find? 32).map (·.pending) = some [⟨2, 0, 3⟩] ∧
      ((HostOperation.commitResult 32 [7, 8]).after host).queue =
        host.queue ++ [⟨1, .accessChange⟩, ⟨2, .accessChange⟩, ⟨1, .gotRange⟩] := by
  intro host
  have hserved : host.Served :=
    .step (.requestRange 2 0 3) rfl <| .step (.requestRange 1 0 2) rfl <| .step (.linkResult 32) rfl <|
      .step (.linkResult 32) rfl <| .step (.defineResult "32,Scan,S,,INT32") rfl .empty
  exact ⟨hserved, (requests_accounted host hserved).1, by decide +kernel, by decide +kernel, by decide +kernel⟩

end Host

end HostScript
