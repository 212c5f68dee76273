import HostScript.Proofs.Declaring
import HostScript.Proofs.HostLinks
import HostScript.Proofs.Objects
/-!
# What scripts do to their bindings

A script reaches its host through links: those of the variables and results that it has bound, and those of its
parameters. An object that stands for a host entity goes through one of them. Whatever the script does to the host
and to its links is said once: it binds a variable or a result by a new link, it points a link of its own or of a
parameter to another variable, it points a link to another result, or all links stay where they are.
-/

set_option autoImplicit false

namespace HostScript

/-! ## The objects of an arena -/

namespace Arena

variable {ω : Type} {arena : Arena ω} {Q : ω → Prop}

/-- Every object has a property. -/
def All (Q : ω → Prop) (arena : Arena ω) : Prop := ∀ slot ∈ arena.slots, ∀ o, slot.object = some o → Q o

theorem all_empty : (empty : Arena ω).All Q := fun _ hslot => nomatch hslot

theorem All.mono (h : arena.All Q) {Q' : ω → Prop} (hQ : ∀ o, Q o → Q' o) : arena.All Q' :=
  fun slot hslot o ho => hQ o (h slot hslot o ho)

theorem All.get (h : arena.All Q) {handle : Handle} {o : ω} (ho : arena.get? handle = some o) : Q o := by
  obtain ⟨slot, hslot, hobject⟩ := Option.bind_eq_some_iff.mp ho
  exact h slot (List.mem_of_getElem? (slot_eq_some.mp hslot).1) o hobject

/-- A slot is replaced by one whose object has the property, too. -/
theorem All.replace (h : arena.All Q) (index : Nat) {slot : Slot ω} (hslot : ∀ o, slot.object = some o → Q o)
    (free : List Nat) : All Q ⟨arena.slots.set index slot, free⟩ := by
  intro other hother o ho
  rcases List.mem_or_eq_of_mem_set hother with hmem | rfl
  · exact h other hmem o ho
  · exact hslot o ho

theorem All.insert (h : arena.All Q) {o : ω} (ho : Q o) : (arena.insert o).1.All Q := by
  have hnew : ∀ o', (some o : Option ω) = some o' → Q o' := fun o' he => Option.some_inj.mp he ▸ ho
  unfold Arena.insert
  split
  · intro slot hslot o' ho'
    rcases List.mem_append.mp hslot with hmem | hmem
    · exact h slot hmem o' ho'
    · rw [List.mem_singleton.mp hmem] at ho'
      exact hnew o' ho'
  · exact h.replace _ hnew _

theorem All.modifySlot (h : arena.All Q) (handle : Handle) {f : Slot ω → Slot ω}
    (hf : ∀ slot ∈ arena.slots, ∀ o, (f slot).object = some o → Q o) : (arena.modifySlot handle f).All Q := by
  unfold Arena.modifySlot
  cases hslot : arena.slot? handle with
  | none => exact h
  | some slot => exact h.replace _ (hf slot (List.mem_of_getElem? (slot_eq_some.mp hslot).1)) _

theorem All.set (h : arena.All Q) (handle : Handle) {o : ω} (ho : Q o) : (arena.set handle o).All Q :=
  h.modifySlot handle fun _ _ _ he => Option.some_inj.mp he ▸ ho

theorem All.retain (h : arena.All Q) (handle : Handle) : (arena.retain handle).All Q :=
  h.modifySlot handle fun slot hslot => h slot hslot

theorem All.collect (h : arena.All Q) (agrees : ω → Bool) (handle : Handle) :
    (collect agrees arena handle).1.All Q := by
  unfold Arena.collect
  split
  · exact h
  · split
    · unfold Arena.remove
      split
      · exact h
      · exact h.replace _ (by simp) _
    · exact h

theorem All.release (h : arena.All Q) (agrees : ω → Bool) (handle : Handle) :
    (release agrees arena handle).1.All Q := by
  have hless : (arena.modifySlot handle fun slot => { slot with refs := slot.refs - 1 }).All Q :=
    h.modifySlot handle fun slot hslot => h slot hslot
  exact hless.collect agrees handle

end Arena

/-! ## Links -/

namespace Binding

def variableLinks (b : Binding) : List Nat := b.vars.map (·.link)

def resultLinks (b : Binding) : List Nat := b.results.map (·.link)

def parameterLinks (b : Binding) : List Nat := b.parameters.map (·.link)

/-- The links of the variables, with the positions that they call when their variables change. -/
def valueHooks (b : Binding) : List (Nat × Int) := b.vars.map fun v => (v.link, v.hooks.get .value)

/-- The position that a link calls when its variable changes. -/
def valueHook? (b : Binding) (link : Nat) : Option Int := (b.valueHooks.find? (·.1 = link)).map (·.2)

/-- The binding has the link that an object goes through. -/
def Knows {κ : Type} (b : Binding) : ScriptObject κ → Prop
  | .native _ => True
  | .variable link _ => link ∈ b.variableLinks ∨ link ∈ b.parameterLinks
  | .result link => link ∈ b.resultLinks

/-- Names, hooks and the like may change, but not the links. -/
structure SameLinks (b b' : Binding) : Prop where
  vars : b'.variableLinks = b.variableLinks
  results : b'.resultLinks = b.resultLinks
  parameters : b'.parameterLinks = b.parameterLinks

theorem SameLinks.rfl {b : Binding} : SameLinks b b := ⟨Eq.refl _, Eq.refl _, Eq.refl _⟩

/-- Nor do the positions change that are called when a variable changes. -/
structure SameHooks (b b' : Binding) : Prop extends SameLinks b b' where
  hooks : b'.valueHooks = b.valueHooks

theorem SameHooks.rfl {b : Binding} : SameHooks b b := ⟨.rfl, Eq.refl _⟩

/-- What a change to variables keeps of each of them, it keeps of all. -/
theorem modifyVariable_map {β : Type} (b : Binding) (link : Nat) {f : VariableBinding → VariableBinding}
    {g : VariableBinding → β} (hg : ∀ v, g (f v) = g v) : (b.modifyVariable link f).vars.map g = b.vars.map g := by
  simp only [modifyVariable, List.map_map]
  refine List.map_congr_left fun v _ => ?_
  simp only [Function.comp_apply]
  split
  · exact hg v
  · exact Eq.refl _

theorem modifyVariable_links (b : Binding) (link : Nat) {f : VariableBinding → VariableBinding}
    (hf : ∀ v, (f v).link = v.link) : SameLinks b (b.modifyVariable link f) :=
  ⟨b.modifyVariable_map link hf, Eq.refl _, Eq.refl _⟩

theorem modifyVariable_valueHook (b : Binding) {link other : Nat} {f : VariableBinding → VariableBinding}
    (hf : ∀ v, (f v).link = v.link) (hne : other ≠ link) :
    (b.modifyVariable other f).valueHook? link = b.valueHook? link := by
  simp only [valueHook?, valueHooks, modifyVariable]
  induction b.vars with
  | nil => rfl
  | cons v vars ih =>
    rw [List.map_cons, List.map_cons, List.map_cons, List.find?_cons, List.find?_cons]
    by_cases hv : v.link = link
    · rw [if_neg fun he => hne (he.symm.trans hv)]
      simp only [hv, decide_true]
    · have hkept : (if v.link = other then f v else v).link ≠ link := by
        split
        · exact hf v ▸ hv
        · exact hv
      simpa only [hv, hkept, decide_false] using ih

theorem modifyResult_links (b : Binding) (link : Nat) {f : ResultBinding → ResultBinding}
    (hf : ∀ r, (f r).link = r.link) : SameLinks b (b.modifyResult link f) := by
  refine ⟨Eq.refl _, ?_, Eq.refl _⟩
  simp only [resultLinks, modifyResult, List.map_map]
  refine List.map_congr_left fun r _ => ?_
  simp only [Function.comp_apply]
  split
  · exact hf r
  · exact Eq.refl _

end Binding

/-! ## Steps -/

namespace HostOperation

/-- The operations that make a link to a variable. -/
inductive LinksVariable (host : Host) : HostOperation → Prop
  | imports (id : Int64) : LinksVariable host (.importVariable id)
  | exports (csv : String) (id : Int64) : (host.defineVariable csv).2 = .ok id →
    LinksVariable host (.exportVariable csv)

/-- The operations that point a link to another variable. -/
inductive Repoints (link : Nat) : HostOperation → Prop
  | relinks (id : Int64) : Repoints link (.relinkVariable link id)
  | redefines (csv : String) : Repoints link (.redefineVariable link csv)

end HostOperation

open HostOperation (after LinksVariable Repoints)

/-- What a script does with links, other than reading and writing through them. -/
inductive LinkDeed
  /-- Points a link to another variable. -/
  | points (op : HostOperation)
  /-- Sets the position that a link calls when its variable changes. -/
  | hooks (link : Nat)
  /-- Sets the positions of the labels that statements asked for. -/
  | settles

/-- What a script does to its binding. -/
inductive BindingStep (b : Binding) : Option LinkDeed → Binding → Prop
  | rests {b' : Binding} : b.SameHooks b' → b.host.SameStock b'.host → BindingStep b none b'
  | points (op : HostOperation) (link : Nat) : op.Repoints link →
    link ∈ b.variableLinks ∨ link ∈ b.parameterLinks →
    BindingStep b (some (.points op)) { b with host := op.after b.host }
  | hooks (link : Nat) (f : VariableBinding → VariableBinding) : (∀ v, (f v).link = v.link) →
    BindingStep b (some (.hooks link)) (b.modifyVariable link f)
  | settles {b' : Binding} : b.SameLinks b' → b'.host = b.host → BindingStep b (some .settles) b'
  | relinksResult (link : Nat) (id : Int64) : link ∈ b.resultLinks →
    BindingStep b none { b with host := after b.host (.relinkResult link id) }
  | bindsVariable (op : HostOperation) (v : VariableBinding) : op.LinksVariable b.host →
    v.link = b.host.lastLink + 1 → BindingStep b none { b with host := op.after b.host, vars := b.vars ++ [v] }
  | bindsResult (id : Int64) (r : ResultBinding) : r.link = b.host.lastLink + 1 →
    BindingStep b none { b with host := after b.host (.linkResult id), results := b.results ++ [r] }

theorem BindingStep.unchanged {b : Binding} : BindingStep b none b := .rests .rfl .rfl

theorem Binding.SameLinks.knows {κ : Type} {b b' : Binding} (h : b.SameLinks b') (o : ScriptObject κ) (ho : b.Knows o) :
    b'.Knows o := by
  rcases o with o | ⟨link, kind⟩ | link
  · trivial
  · rwa [Knows, h.vars, h.parameters]
  · rwa [Knows, h.results]

/-- The links that a binding has, it keeps. -/
theorem BindingStep.knows {κ : Type} {b b' : Binding} {deed : Option LinkDeed} (h : BindingStep b deed b')
    (o : ScriptObject κ) (ho : b.Knows o) : b'.Knows o := by
  cases h with
  | rests hsame => exact hsame.knows o ho
  | settles hsame => exact hsame.knows o ho
  | hooks link f hf => exact (b.modifyVariable_links link hf).knows o ho
  | points op link => rcases o with o | ⟨link, kind⟩ | link <;> exact ho
  | relinksResult link id => rcases o with o | ⟨link, kind⟩ | link <;> exact ho
  | bindsVariable op v =>
    rcases o with o | ⟨link, kind⟩ | link
    · trivial
    · exact ho.imp_left fun hv => by
        rw [Binding.variableLinks, List.map_append]
        exact List.mem_append_left _ hv
    · exact ho
  | bindsResult id r =>
    rcases o with o | ⟨link, kind⟩ | link
    · trivial
    · exact ho
    · rw [Binding.Knows, Binding.resultLinks, List.map_append]
      exact List.mem_append_left _ ho

/-- It keeps them when parameters are added, whatever becomes of the host. -/
theorem Binding.knows_grown {κ : Type} {b : Binding} (host : Host) (more : List Parameter) (o : ScriptObject κ)
    (ho : b.Knows o) : Binding.Knows { b with host := host, parameters := b.parameters ++ more } o := by
  rcases o with o | ⟨link, kind⟩ | link
  · trivial
  · refine ho.imp_right fun hp => ?_
    rw [Binding.parameterLinks, List.map_append]
    exact List.mem_append_left _ hp
  · exact ho

/-- The links to variables stay in their places, and more come behind them. -/
theorem BindingStep.links {b b' : Binding} {deed : Option LinkDeed} (h : BindingStep b deed b') :
    b.variableLinks <+: b'.variableLinks := by
  cases h with
  | rests hsame => exact hsame.vars ▸ List.prefix_rfl
  | settles hsame => exact hsame.vars ▸ List.prefix_rfl
  | hooks link f hf => exact (b.modifyVariable_links link hf).vars ▸ List.prefix_rfl
  | points => exact List.prefix_rfl
  | relinksResult => exact List.prefix_rfl
  | bindsResult => exact List.prefix_rfl
  | bindsVariable op v =>
    rw [Binding.variableLinks, Binding.variableLinks, List.map_append]
    exact List.prefix_append _ _

/-- A position that a link calls stays, unless it is set. -/
theorem BindingStep.valueHook {b b' : Binding} {deed : Option LinkDeed} (h : BindingStep b deed b') {link : Nat}
    {ip : Int} (hip : b.valueHook? link = some ip) (hhooks : deed ≠ some (.hooks link))
    (hsettles : deed ≠ some .settles) : b'.valueHook? link = some ip := by
  cases h with
  | rests hsame => rwa [Binding.valueHook?, hsame.hooks]
  | settles => exact absurd rfl hsettles
  | points => exact hip
  | relinksResult => exact hip
  | bindsResult => exact hip
  | bindsVariable op v =>
    rw [Binding.valueHook?, Binding.valueHooks, List.map_append, List.find?_append, Option.map_or]
    exact Option.or_eq_some_iff.mpr (.inl hip)
  | hooks other f hf =>
    have hne : other ≠ link := fun he => hhooks (he ▸ rfl)
    exact (b.modifyVariable_valueHook hf hne).trans hip

/-! ## Stand-ins -/

/-- What setting up a variable does to the host. -/
def VariableMember.setUpOperation (link : Nat) (v : Value) : HostOperation :=
  if v.isNumber then .relinkVariable link v.toInt else .redefineVariable link v.text

namespace ScriptState

variable {κ μ : Type} {s : ScriptState κ} {link : Nat}

/-- What a member of a stand-in does with its link. -/
def memberDeed? (s : ScriptState κ) (link : Nat) : VariableMember → Access → Option LinkDeed
  | .setup, .call args => some (.points (VariableMember.setUpOperation link (args.headD .undefined)))
  | .id, .write v => if s.isGlobal link then some (.points (.relinkVariable link v.toInt)) else none
  | .on hook, .write _ => if hook = .value then some (.hooks link) else none
  | _, _ => none

/-- What an access does with links. -/
def deed? (s : ScriptState κ) : ScriptId μ → Access → Option LinkDeed
  | .hostFunction .createVar, .call args =>
    (s.binding.named? (args.getD 0 .undefined).text).map fun v =>
      .points (.redefineVariable v.link (args.getD 1 .undefined).text)
  | .member h (.variable m), a =>
    match s.arena.get? h with
    | some (.variable link _) => s.memberDeed? link m a
    | _ => none
  | _, _ => none

/-- The binding changes by a step, and objects are made for links of the binding only. -/
structure Changes (s : ScriptState κ) (deed : Option LinkDeed) (t : ScriptState κ) : Prop where
  step : BindingStep s.binding deed t.binding
  known : s.arena.All s.binding.Knows → t.arena.All t.binding.Knows

/-- What an action changes of the binding. -/
def Does {α : Type} (s : ScriptState κ) (deed : Option LinkDeed) (m : ScriptAction κ α) : Prop :=
  s.Changes deed (m s).2

/-- What a script knows of its host. -/
def world (s : ScriptState κ) : Binding × Arena (ScriptObject κ) := (s.binding, s.arena)

/-- No object is made. -/
theorem Changes.of_step {t : ScriptState κ} {deed : Option LinkDeed} (h : BindingStep s.binding deed t.binding)
    (harena : t.arena = s.arena) : s.Changes deed t := ⟨h, fun hs => harena ▸ hs.mono h.knows⟩

/-- Only events are queued. -/
theorem Changes.of_world {t : ScriptState κ} (h : SameWorld s t) : s.Changes none t := by
  have hvars : s.binding.settled.vars = t.binding.settled.vars := congrArg (·.vars) h.binding
  have hresults : s.binding.settled.results = t.binding.settled.results := congrArg (·.results) h.binding
  have hparameters : s.binding.settled.parameters = t.binding.settled.parameters := congrArg (·.parameters) h.binding
  have hhost : s.binding.settled.host = t.binding.settled.host := congrArg (·.host) h.binding
  have hlinks : s.binding.SameLinks t.binding :=
    ⟨congrArg (·.map (·.link)) hvars.symm, congrArg (·.map (·.link)) hresults.symm,
      congrArg (·.map (·.link)) hparameters.symm⟩
  have hstock : s.binding.host.SameStock t.binding.host :=
    ⟨congrArg (·.links) hhost.symm, congrArg (·.lastLink) hhost.symm, fun x => congrArg (·.vars.contains x) hhost.symm⟩
  have hhooks : t.binding.valueHooks = s.binding.valueHooks :=
    congrArg (·.map fun v => (v.link, v.hooks.get .value)) hvars.symm
  exact .of_step (.rests ⟨hlinks, hhooks⟩ hstock) h.arena.symm

namespace Does

variable {α β : Type} {deed : Option LinkDeed} {m : ScriptAction κ α}

theorem pure (a : α) : s.Does none (pure a) := .of_step .unchanged rfl

theorem look {k : ScriptState κ → ScriptAction κ α} (h : s.Does deed (k s)) : s.Does deed (get >>= k) := h

/-- What follows leaves the binding and the objects alone. -/
theorem bind (h : s.Does deed m) {k : α → ScriptAction κ β} (hk : ∀ a, Keeps world (k a)) : s.Does deed (m >>= k) := by
  have hbinding : ((m >>= k) s).2.binding = (m s).2.binding := congrArg Prod.fst (hk (m s).1 (m s).2)
  have harena : ((m >>= k) s).2.arena = (m s).2.arena := congrArg Prod.snd (hk (m s).1 (m s).2)
  exact ⟨hbinding ▸ h.step, fun hs => hbinding ▸ harena ▸ h.known hs⟩

theorem of_keeps (h : Keeps world m) : s.Does none m := by
  have hbinding : (m s).2.binding = s.binding := congrArg Prod.fst (h s)
  exact .of_step (hbinding ▸ .unchanged) (congrArg Prod.snd (h s))

/-- What comes before leaves everything alone. -/
theorem before {m : ScriptAction κ β} (hm : Keeps id m) {k : β → ScriptAction κ α} (h : ∀ b, s.Does deed (k b)) :
    s.Does deed (m >>= k) := by
  have hstate : (m >>= k) s = k (m s).1 s := congrArg (k (m s).1) (hm s)
  exact ⟨hstate ▸ (h _).step, hstate ▸ (h _).known⟩

theorem onHost {f : Host → Host × α} (h : s.host.SameStock (f s.host).1) :
    s.Does none (onHost f) := .of_step (.rests ⟨⟨rfl, rfl, rfl⟩, rfl⟩ h) rfl

theorem modifyBinding {f : Binding → Binding} (hf : s.binding.SameHooks (f s.binding))
    (hhost : (f s.binding).host = s.host) : s.Does none (modify fun s => s.modifyBinding f : ScriptAction κ Unit) := by
  refine .of_step (.rests hf ?_) rfl
  change s.host.SameStock (f s.binding).host
  rw [hhost]
  exact .rfl

end Does

/-! ### Members -/

theorem ofVariable_keeps {α β : Type} (f : ScriptState κ → β) (link : Nat) (g : Variable → α) (missing : α) :
    Keeps f (ofVariable link g missing) := by
  refine .bind .get fun s => ?_
  split <;> exact .pure _

theorem ofResult_keeps {α β : Type} (f : ScriptState κ → β) (link : Nat) (g : Result → α) (missing : α) :
    Keeps f (ofResult link g missing) := by
  refine .bind .get fun s => ?_
  split <;> exact .pure _

theorem putFlags_does (link : Nat) (flags : VariableFlags) : s.Does none (putFlags link flags) :=
  .look (.onHost (Host.updateFlags_stores link flags (s.skipsEvent link)).sameStock)

theorem changeFlags_does (link : Nat) (f : VariableFlags → VariableFlags) : s.Does none (changeFlags link f) := by
  refine .look ?_
  split
  · exact putFlags_does link _
  · exact .pure _

theorem putValue_does (link : Nat) (v : Value) : s.Does none (putValue link v) :=
  .look (.bind (.onHost (Host.setVariable_stores link v (s.skipsEvent link)).sameStock) fun _ => .pure _)

/-- What is done to the host, when only its success is of interest. -/
theorem onHost_isOk {ε α : Type} {f : Host → Host × Except ε α} {deed : Option LinkDeed}
    (h : BindingStep s.binding deed { s.binding with host := (f s.host).1 }) :
    s.Does deed (onHost fun host =>
      let (host, r) := f host
      (host, r.isOk)) := .of_step h rfl

theorem setUp_does (hlink : link ∈ s.binding.variableLinks ∨ link ∈ s.binding.parameterLinks) (v : Value) :
    s.Does (some (.points (VariableMember.setUpOperation link v))) (VariableMember.setUp link v) := by
  unfold VariableMember.setUp VariableMember.setUpOperation
  split
  · exact .of_step (.points _ link (.relinks _) hlink) rfl
  · exact onHost_isOk (f := fun host => host.redefineVariable link v.text) (.points _ link (.redefines _) hlink)

theorem variableCall_does (hlink : link ∈ s.binding.variableLinks ∨ link ∈ s.binding.parameterLinks)
    (m : VariableMember) (args : List Value) :
    s.Does (s.memberDeed? link m (.call args)) (m.call link (args.headD .undefined)) := by
  cases m with
  | setup => exact .bind (setUp_does hlink _) fun _ => .pure _
  | name => exact .of_keeps (.bind (ofVariable_keeps _ _ _ _) fun _ => .pure _)
  | isFlags => exact .of_keeps (.bind (ofVariable_keeps _ _ _ _) fun _ => .pure _)
  | setFlags => exact .bind (changeFlags_does link _) fun _ => .pure _
  | unsetFlags => exact .bind (changeFlags_does link _) fun _ => .pure _
  | _ => exact .pure _

theorem variableRead_keeps {β : Type} (f : ScriptState κ → β) (link : Nat) (m : VariableMember) :
    Keeps f (m.read link) := by
  refine .bind .get fun s => ?_
  cases m <;> first | exact .pure _ | exact .bind (ofVariable_keeps _ _ _ _) fun _ => .pure _

theorem variableWrite_does (hlink : link ∈ s.binding.variableLinks ∨ link ∈ s.binding.parameterLinks)
    (m : VariableMember) (v : Value) : s.Does (s.memberDeed? link m (.write v)) (m.write link v) := by
  cases m with
  | id =>
    refine .look ?_
    unfold memberDeed?
    cases s.isGlobal link with
    | false => exact .pure _
    | true =>
      have hrelinks : s.Does (some (.points (.relinkVariable link v.toInt)))
          (onHost fun host => host.relinkVariable link v.toInt) :=
        .of_step (.points _ link (.relinks _) hlink) rfl
      exact .bind hrelinks fun _ => .pure _
  | cur => exact putValue_does link v
  | flags =>
    refine .look ?_
    unfold memberDeed?
    cases s.isGlobal link with
    | false => exact .pure _
    | true => exact .bind (putFlags_does link _) fun _ => .pure _
  | on hook =>
    dsimp only [memberDeed?]
    split
    · exact .of_step (.hooks link _ fun _ => rfl) rfl
    · rename_i hother
      have hkept : ∀ slots : HookSlots, (slots.set hook (hookPosition v)).get .value = slots.get .value := by
        cases hook <;> first | exact fun _ => rfl | exact absurd rfl hother
      exact .modifyBinding ⟨s.binding.modifyVariable_links link fun _ => rfl,
        s.binding.modifyVariable_map link fun x => congrArg (x.link, ·) (hkept x.hooks)⟩ rfl
  | skipEvent =>
    exact .modifyBinding ⟨s.binding.modifyVariable_links link fun _ => rfl,
      s.binding.modifyVariable_map link fun _ => rfl⟩ rfl
  | _ => exact .pure _

/-- A stand-in for a variable reaches the host through its link. -/
theorem variableAccess_does (hlink : link ∈ s.binding.variableLinks ∨ link ∈ s.binding.parameterLinks)
    (m : VariableMember) (a : Access) : s.Does (s.memberDeed? link m a) (m.access link a) := by
  cases a with
  | read =>
    have hop : s.memberDeed? link m .read = none := by cases m <;> rfl
    rw [hop]
    exact .of_keeps (variableRead_keeps _ _ _)
  | call args => exact variableCall_does hlink m args
  | write v => exact .bind (variableWrite_does hlink m v) fun _ => .pure _

theorem resultRead_keeps {β : Type} (f : ScriptState κ → β) (link : Nat) (m : ResultMember) :
    Keeps f (m.read link) := by
  refine .bind .get fun s => ?_
  cases m <;> first | exact .pure _ | exact .bind (ofResult_keeps _ _ _ _) fun _ => .pure _

theorem resultCall_does (m : ResultMember) (args : List Value) : s.Does none (m.call link args) := by
  cases m with
  | name => exact .of_keeps (.bind (ofResult_keeps _ _ _ _) fun _ => .pure _)
  | data => exact .of_keeps (.bind (ofResult_keeps _ _ _ _) fun _ => .pure _)
  | request =>
    exact .before (ofResult_keeps _ _ _ _) fun count =>
      .bind (.onHost (Host.requestRange_results _ _ _).sameStock) fun _ => .pure _
  | _ => exact .pure _

/-- A stand-in for a result may point its link to another result. -/
theorem resultAccess_does (hlink : link ∈ s.binding.resultLinks) (m : ResultMember) (a : Access) :
    s.Does none (m.access link a) := by
  cases a with
  | read => exact .of_keeps (resultRead_keeps _ _ _)
  | call args => exact resultCall_does m args
  | write v =>
    refine .bind ?_ fun _ => .pure _
    cases m with
    | id =>
      have hrelinks : s.Does none (onHost fun host => host.relinkResult link v.toInt) :=
        .of_step (.relinksResult link v.toInt hlink) rfl
      exact .bind hrelinks fun _ => .pure _
    | on hook => exact .modifyBinding ⟨s.binding.modifyResult_links link fun _ => rfl, rfl⟩ rfl
    | _ => exact .pure _

/-! ### Functions of the host -/

/-- A link to a new variable, or else to no variable at all. -/
theorem linkDefined_eq (csv : String) (s : ScriptState κ) :
    ∃ op, LinksVariable s.host op ∧
      Binding.linkDefined csv s = (s.host.lastLink + 1, s.setHost (op.after s.host)) := by
  unfold Binding.linkDefined onHost
  rcases hexport : s.host.exportVariable csv with ⟨host, e | link⟩
  · have hfailed : (s.host.exportVariable csv).2 = .error e := congrArg Prod.snd hexport
    have hhost : host = s.host := (congrArg Prod.fst hexport).symm.trans (Host.exportVariable_fails hfailed)
    refine ⟨.importVariable 0, .imports 0, ?_⟩
    simp [modifyGet, MonadStateOf.modifyGet, StateT.modifyGet, hexport, hhost]
    rfl
  · obtain ⟨rfl, -, id, hid⟩ := Host.exportVariable_ok (congrArg Prod.snd hexport)
    refine ⟨.exportVariable csv, .exports csv id hid, ?_⟩
    simp [modifyGet, MonadStateOf.modifyGet, StateT.modifyGet, hexport, after]
    rfl

/-- An object is stored for a new link, which is bound along with it. -/
theorem keepObject_knows {b b' : Binding} {o : ScriptObject κ} (hs : s.arena.All b.Knows)
    (hkept : ∀ o : ScriptObject κ, b.Knows o → b'.Knows o) (ho : b'.Knows o) :
    ((s.arena.insert o).1.retain (s.arena.insert o).2).All b'.Knows :=
  ((hs.mono hkept).insert ho).retain _

/-- A variable is bound by the link that was made for it. -/
theorem bindVariable_changes {op : HostOperation} (hop : LinksVariable s.host op) (name : Option String) :
    s.Changes none (Binding.bindVariable name (s.host.lastLink + 1) (s.setHost (op.after s.host))).2 := by
  have hstep : BindingStep s.binding none
      (Binding.bindVariable name (s.host.lastLink + 1) (s.setHost (op.after s.host))).2.binding :=
    .bindsVariable op _ hop rfl
  refine ⟨hstep, fun hs => keepObject_knows hs hstep.knows (.inl ?_)⟩
  exact List.mem_map_of_mem (f := VariableBinding.link) (List.mem_append_right _ (List.mem_singleton_self _))

theorem bindVariable_does {op : HostOperation} (hop : LinksVariable s.host op) {m : ScriptAction κ Nat}
    (hm : m s = (s.host.lastLink + 1, s.setHost (op.after s.host))) (name : Option String) {β : Type}
    {k : Handle → ScriptAction κ β} (hk : ∀ h, Keeps world (k h)) :
    s.Does none (do k (← Binding.bindVariable name (← m))) := by
  have hbind : s.Does none (do Binding.bindVariable name (← m)) := by
    have hstate : (do Binding.bindVariable name (← m)) s = Binding.bindVariable name (m s).1 (m s).2 := rfl
    rw [Does, hstate, hm]
    exact bindVariable_changes hop name
  exact hbind.bind hk

theorem bindResult_does (id : Int64) : s.Does none (Binding.bindResult id) := by
  have hstep : BindingStep s.binding none (Binding.bindResult id s).2.binding := .bindsResult id _ rfl
  refine ⟨hstep, fun hs => ?_⟩
  refine keepObject_knows hs hstep.knows ?_
  exact List.mem_map_of_mem (f := ResultBinding.link) (List.mem_append_right _ (List.mem_singleton_self _))

theorem redefineNamed_does (name csv : String) :
    s.Does ((s.binding.named? name).map fun v => .points (.redefineVariable v.link csv))
      (Binding.redefineNamed name csv) := by
  refine .look ?_
  cases hv : s.binding.named? name with
  | none => exact .pure _
  | some v =>
    have hlink : v.link ∈ s.binding.variableLinks := List.mem_map_of_mem (List.mem_of_find?_eq_some hv)
    exact onHost_isOk (f := fun host => host.redefineVariable v.link csv) (.points _ v.link (.redefines _) (.inl hlink))

theorem hostCall_does (g : HostFunction) (args : List Value) :
    s.Does (s.deed? (.hostFunction g : ScriptId μ) (.call args)) (Binding.call g args) := by
  have hflags : ∀ f name flags, s.Does none (Binding.changeNamedFlags f name flags) := by
    intro f name flags
    refine .look ?_
    split
    · exact .pure _
    · exact changeFlags_does _ _
  rcases g with _ | _ | _ | _ | _ | _ | _ | _
  · exact .look (.pure _)
  · exact .look (.pure _)
  · exact .bind (hflags _ _ _) fun _ => .pure _
  · exact .bind (hflags _ _ _) fun _ => .pure _
  · exact .bind (hflags _ _ _) fun _ => .pure _
  · exact .bind (redefineNamed_does _ _) fun _ => .pure _
  · obtain ⟨op, hop, hlink⟩ := linkDefined_eq (args.getD 0 .undefined).text s
    have himport : ∀ id, onHost (fun host => host.importVariable id) s =
        (s.host.lastLink + 1, s.setHost (after s.host (.importVariable id))) := fun _ => rfl
    unfold Binding.call
    dsimp only [deed?]
    split
    · exact bindVariable_does (.imports _) (himport _) none fun _ => .pure _
    · exact bindVariable_does hop hlink none fun _ => .pure _
  · exact .bind (bindResult_does _) fun _ => .pure _

/-! ### Identifiers -/

variable [NativeObject κ μ]

/-- A function of the script makes native objects only. -/
theorem scriptCall_does (registry : Registry κ) (g : ScriptFunction) (args : List Value) :
    s.Does none (g.call registry args) := by
  have hbinding : (g.call registry args s).2.binding = s.binding :=
    congrArg (·.2.2) (scriptCall_keeps registry g args s)
  refine ⟨hbinding ▸ .unchanged, fun hs => ?_⟩
  rw [hbinding]
  rcases scriptCall_arena registry g args s with h | ⟨-, o, h⟩
  · exact h ▸ hs
  · exact h ▸ hs.insert trivial

theorem moveReference_all {Q : ScriptObject κ → Prop} {arena : Arena (ScriptObject κ)} (h : arena.All Q)
    (old new : Option Handle) : (moveReference arena old new).All Q := by
  unfold moveReference
  split
  · exact h
  · cases old with
    | none =>
      cases new with
      | none => exact h
      | some new => exact h.retain new
    | some old =>
      cases new with
      | none => exact h.release _ old
      | some new => exact (h.release _ old).retain new

theorem accessVariable_does (index : Nat) (a : Access) : s.Does none (accessVariable index a) := by
  refine .look ?_
  split
  · exact .pure _
  · exact ⟨.unchanged, fun hs => moveReference_all hs _ _⟩
  · exact .pure _

theorem accessBound_does (index : Nat) (a : Access) : s.Does none (Binding.accessBound index a) := by
  refine .look ?_
  split
  · exact .pure _
  · exact .bind (putValue_does _ _) fun _ => .pure _
  · exact .of_keeps (.bind (ofVariable_keeps _ _ _ _) fun _ => .pure _)

theorem accessParameter_does (index : Nat) (a : Access) : s.Does none (Binding.accessParameter index a) := by
  refine .look ?_
  split <;> exact .pure _

/-- An object is reached through a link of the binding, or it is a native one. -/
theorem objectAccess_does (hs : s.arena.All s.binding.Knows) (h : Handle) (m : ObjectMember μ) (a : Access) :
    s.Does (s.deed? (.member h m) a) (ScriptObject.access h m a) := by
  have hvariable : ∀ m : VariableMember, s.deed? (.member h (.variable m) : ScriptId μ) a =
      match s.arena.get? h with
      | some (.variable link _) => s.memberDeed? link m a
      | _ => none := fun _ => rfl
  refine .look ?_
  rcases m with m | m | m
  · rcases ho : s.arena.get? h with _ | o | ⟨link, kind⟩ | link
    · exact .pure _
    · dsimp only
      split
      · exact .pure _
      · exact .pure _
      · exact ⟨.unchanged, fun hs => hs.set h trivial⟩
    · exact .pure _
    · exact .pure _
  · rw [hvariable]
    rcases ho : s.arena.get? h with _ | o | ⟨link, kind⟩ | link
    · exact .pure _
    · exact .pure _
    · exact variableAccess_does (hs.get ho) m a
    · exact .pure _
  · rcases ho : s.arena.get? h with _ | o | ⟨link, kind⟩ | link
    · exact .pure _
    · exact .pure _
    · exact .pure _
    · exact resultAccess_does (hs.get ho) m a

/-- What an access does to the binding, if the objects go through links of it. -/
theorem access_does (registry : Registry κ) (hs : s.arena.All s.binding.Knows) (i : ScriptId μ) (a : Access) :
    s.Does (s.deed? i a) (access registry i a) := by
  rcases i with g | g | k | x | index | index | index | index | ⟨h, m⟩
  · cases a with
    | call args => exact scriptCall_does registry g args
    | _ => exact .pure _
  · cases a with
    | call args => exact hostCall_does g args
    | _ => cases g <;> exact .pure _
  · exact .pure _
  · exact .pure _
  · exact accessVariable_does index a
  · exact .of_keeps (accessLabel_keeps index a)
  · exact accessBound_does index a
  · exact accessParameter_does index a
  · exact objectAccess_does hs h m a

theorem release_changes (registry : Registry κ) (h : Handle) : s.Changes none ((scope (μ := μ) registry).release h s) :=
  ⟨.unchanged, fun hs => hs.collect _ h⟩

/-! ### Statements -/

omit [NativeObject κ μ]

theorem setChangeLabel_map {β : Type} {g : VariableBinding → β}
    (hg : ∀ v label, g { v with changeLabel := some label } = g v) (name label : String) (vars : List VariableBinding) :
    (Binding.setChangeLabel name label vars).map g = vars.map g := by
  induction vars with
  | nil => rfl
  | cons v vars ih =>
    unfold Binding.setChangeLabel
    split
    · exact congrArg (· :: vars.map g) (hg v label)
    · exact congrArg (g v :: ·) ih

theorem importStatement_does (text : String) : s.Does none (Binding.importStatement text) := by
  unfold Binding.importStatement
  split
  · exact .pure _
  · refine .look ?_
    split
    · exact .pure _
    · exact bindVariable_does (.imports _) rfl _ fun _ => .pure _

theorem onHost_bind {α β : Type} (f : Host → Host × α) (k : α → ScriptAction κ β) :
    (onHost f >>= k) s = k (f s.host).2 (s.setHost (f s.host).1) := rfl

theorem exportStatement_does (text : String) : s.Does none (Binding.exportStatement text) := by
  unfold Binding.exportStatement
  generalize (Text.cut ',' text).getD (text, "") = parts
  obtain ⟨name, csv⟩ := parts
  dsimp only
  generalize Text.trim csv = csv
  refine .look ?_
  split
  · exact .pure _
  · rw [Does, onHost_bind]
    cases hr : (s.host.exportVariable csv).2 with
    | error e =>
      rw [Host.exportVariable_fails hr]
      exact .of_step (.rests .rfl .rfl) rfl
    | ok link =>
      obtain ⟨rfl, -, id, hid⟩ := Host.exportVariable_ok hr
      have hbound := bindVariable_changes (.exports csv id hid) (some (Text.trim name))
      rw [after] at hbound
      exact hbound

/-- An external statement points no link to another variable. -/
theorem statement_does (x : ExternalWord) (text : String) : s.Does none (Binding.statement x text) := by
  cases x with
  | extern_ => exact .pure _
  | onChange =>
    refine .bind ?_ fun _ => .pure _
    unfold Binding.onChangeStatement
    split
    · exact .pure _
    · exact .modifyBinding ⟨⟨setChangeLabel_map (fun _ _ => rfl) _ _ _, rfl, rfl⟩,
        setChangeLabel_map (fun _ _ => rfl) _ _ _⟩ rfl
  | import_ => exact importStatement_does text
  | export_ => exact exportStatement_does text

/-! ### Linking -/

/-- Stand-ins are made for links of parameters. -/
theorem linkParameters_changes {ps : List Parameter} (hps : ∀ p ∈ ps, p.link ∈ s.binding.parameterLinks) :
    (Binding.linkParameters ps s).2.binding = s.binding ∧
      (Binding.linkParameters ps s).1.map (·.link) = ps.map (·.link) ∧
      (s.arena.All s.binding.Knows → (Binding.linkParameters ps s).2.arena.All s.binding.Knows) := by
  induction ps generalizing s with
  | nil => exact ⟨rfl, rfl, id⟩
  | cons p ps ih =>
    obtain ⟨hp, hps⟩ := List.forall_mem_cons.mp hps
    obtain ⟨hbinding, hlinks, hknown⟩ :=
      @ih { s with arena := (s.arena.insert (.variable p.link .parameter)).1.retain _ } hps
    have hknows : s.binding.Knows (.variable p.link .parameter : ScriptObject κ) := .inr hp
    exact ⟨hbinding, congrArg (p.link :: ·) hlinks, fun hs => hknown ((hs.insert hknows).retain _)⟩

theorem linkParameters_binding (s : ScriptState κ) :
    (Binding.linkParameters s.binding.parameters s).2.binding = s.binding :=
  (linkParameters_changes fun _ hp => List.mem_map_of_mem hp).1

/-- A label is linked through the hooks only. -/
theorem linkLabel_same {β : Type} {g : VariableBinding → β} (hg : ∀ v hooks, g { v with hooks := hooks } = g v)
    (program : Program) (v : VariableBinding) : g (Binding.linkLabel program v) = g v := by
  rw [Binding.linkLabel]
  split
  · rfl
  · exact hg v _

theorem linkLabel_map {β : Type} {g : VariableBinding → β} (hg : ∀ v hooks, g { v with hooks := hooks } = g v)
    (program : Program) (vars : List VariableBinding) : (vars.map (Binding.linkLabel program)).map g = vars.map g := by
  rw [List.map_map]
  exact List.map_congr_left fun v _ => linkLabel_same hg program v

theorem linkLabel_links (program : Program) (vars : List VariableBinding) :
    (vars.map (Binding.linkLabel program)).map (·.link) = vars.map (·.link) :=
  linkLabel_map (fun _ _ => rfl) program vars

/-- Linking leaves the links as they are. -/
theorem link_changes (s : ScriptState κ) : s.Changes (some .settles) (Binding.link s).2 := by
  have hown : ∀ p ∈ s.binding.parameters, p.link ∈ s.binding.parameterLinks := fun _ hp => List.mem_map_of_mem hp
  obtain ⟨hbinding, hlinks, hknown⟩ := linkParameters_changes hown
  have hresults : (Binding.linkParameters s.binding.parameters s).2.binding.resultLinks = s.binding.resultLinks :=
    congrArg Binding.resultLinks hbinding
  have hhost : (Binding.linkParameters s.binding.parameters s).2.binding.host = s.binding.host :=
    congrArg Binding.host hbinding
  obtain ⟨output, hlink⟩ := link_eq s
  have hstep : BindingStep s.binding (some .settles) (Binding.link s).2.binding := by
    rw [hlink]
    exact .settles ⟨(linkLabel_links _ _).trans (congrArg Binding.variableLinks hbinding), hresults, hlinks⟩ hhost
  refine ⟨hstep, fun hs => ?_⟩
  have harena : (Binding.link s).2.arena = (Binding.linkParameters s.binding.parameters s).2.arena :=
    congrArg (·.arena) hlink
  rw [harena]
  exact (hknown hs).mono hstep.knows

/-- The objects of a compiled script go through links that it has. -/
theorem compile_known [NativeObject κ μ] (i : Interpreter κ) (source : String) (hi : i.script.phase ≠ .running) :
    (i.compile source).1.script.arena.All (i.compile source).1.script.binding.Knows :=
  have hpreserves : Compiler.Preserves (declarations i.registry) fun s : ScriptState κ => s.arena.All s.binding.Knows :=
    ⟨fun _ _ h => h, fun text _ _ h => (statement_does _ text).known h⟩
  compile_keeps i source hi hpreserves (fun s h => (link_changes s).known h)
    (fun _ _ hst _ h => (Changes.of_world hst).known h) Arena.all_empty

end ScriptState

/-- What a use does with links. -/
def Effect.deed? {κ μ : Type} (e : Effect κ μ) : Option LinkDeed :=
  match e.use with
  | .access i a => e.before.deed? i a
  | .release _ => none

end HostScript
