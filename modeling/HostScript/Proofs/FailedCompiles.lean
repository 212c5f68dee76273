import HostScript.Proofs.Footprints
import Mathlib.Data.List.Basic
/-!
# Compiling that fails

An `import` or `export` statement takes effect at the host when it is compiled, and nothing takes that back when
compiling fails later. So the host keeps what it had, but has the links of the statements in addition, with the
variables that they own, until the script is cleared: then it has exactly what it had before.
-/

set_option autoImplicit false

namespace HostScript

namespace Host

/-- Removing links takes out nothing but them. -/
theorem unlinkAll_links (links : List Nat) (host : Host) :
    (links.foldl unlink host).links = host.links.without links := by
  induction links generalizing host with
  | nil => exact host.links.without_nil.symm
  | cons link links ih =>
    have hunlink : (host.unlink link).links = host.links.erase link := (@unlink_attaches host link).links
    rw [List.foldl_cons, ih, hunlink, Directory.erase_eq, Directory.without_without]
    rfl

theorem removeVariable_vars (host : Host) (id : Int64) : (host.removeVariable id).1.vars = host.vars.without [id] := by
  rw [← Directory.erase_eq]
  unfold removeVariable
  split
  · rfl
  · rename_i hnot
    exact (Directory.erase_eq_self (by simpa [Directory.contains] using hnot)).symm

theorem unlink_vars (host : Host) (link : Nat) :
    (host.unlink link).vars = host.vars.without (host.owned? link).toList := by
  unfold unlink
  rw [owned_eq]
  rcases host.links.find? link with _ | ⟨id | _, _ | _⟩
  · exact host.vars.without_nil.symm
  · exact host.vars.without_nil.symm
  · exact removeVariable_vars { host with links := host.links.erase link } id
  · exact host.vars.without_nil.symm
  · exact host.vars.without_nil.symm

/-- Removing links takes out the variables that they own, and no others. -/
theorem unlinkAll_vars (links : List Nat) (host : Host) :
    (links.foldl unlink host).vars = host.vars.without (links.filterMap host.owned?) := by
  induction links generalizing host with
  | nil => exact host.vars.without_nil.symm
  | cons link links ih =>
    rw [List.foldl_cons, ih, unlink_vars, Directory.without_without]
    refine Directory.without_congr _ fun x => ?_
    simp only [List.mem_append, Option.mem_toList, List.mem_filterMap, List.mem_cons, unlink_owned]
    constructor
    · rintro (hown | ⟨other, hother, hown⟩)
      · exact ⟨link, .inl rfl, hown⟩
      · split at hown
        · cases hown
        · exact ⟨other, .inr hother, hown⟩
    · rintro ⟨other, rfl | hother, hown⟩
      · exact .inl hown
      · by_cases he : other = link
        · exact .inl (he ▸ hown)
        · exact .inr ⟨other, hother, by rwa [if_neg he]⟩

/-- A variable that is defined is put where there was none. -/
theorem defineVariable_inserts {host : Host} {csv : String} {id : Int64} (h : (host.defineVariable csv).2 = .ok id) :
    ∃ v queue, (host.defineVariable csv).1 = { host with vars := host.vars.insert id v, queue := queue } := by
  unfold defineVariable at h ⊢
  split at h
  · cases h
  · rename_i d hd
    unfold insertVariable at h ⊢
    split at h
    · cases h
    · rename_i hnot
      rw [if_neg hnot]
      obtain rfl : d.id = id := Except.ok.inj h
      exact ⟨_, _, rfl⟩

end Host

/-- A new link to a variable comes with a new variable, if it owns one. -/
theorem HostOperation.LinksVariable.inserts {host : Host} {op : HostOperation} (h : op.LinksVariable host) :
    ∃ id owner, (op.after host).links = host.links.insert (host.lastLink + 1) ⟨.variable id, owner⟩ ∧
      (op.after host).lastLink = host.lastLink + 1 ∧ (owner = false ∧ (op.after host).vars = host.vars ∨
        owner = true ∧ host.vars.find? id = none ∧ ∃ v, (op.after host).vars = host.vars.insert id v) := by
  cases h with
  | imports id => exact ⟨id, false, rfl, rfl, .inl ⟨rfl, rfl⟩⟩
  | exports csv id hid =>
    obtain ⟨v, queue, hdefine⟩ := Host.defineVariable_inserts hid
    have hfresh : host.vars.find? id = none := by simpa [Directory.contains] using Host.defineVariable_fresh hid
    have hexport : host.exportVariable csv =
        (({ host with vars := host.vars.insert id v, queue := queue }.addLink (.variable id) true).1,
          .ok (host.lastLink + 1)) := by
      unfold Host.exportVariable
      rw [show host.defineVariable csv = (_, _) from Prod.ext hdefine hid]
      rfl
    rw [HostOperation.after, hexport]
    exact ⟨id, true, rfl, rfl, .inr ⟨rfl, hfresh, v, rfl⟩⟩

namespace Binding

/-- The host of a binding has what it had before, and in addition the links that the script has bound by name, with
the variables that they own. -/
structure Adds (home : Host) (b : Binding) : Prop where
  numbered : b.host.Numbered
  made : ∀ link ∈ b.variableLinks, link ≤ b.host.lastLink
  named : ∀ v ∈ b.vars, v.name.isSome
  results : b.results = []
  links : b.host.links.without b.variableLinks = home.links
  vars : b.host.vars.without (b.variableLinks.filterMap b.host.owned?) = home.vars

variable {home : Host} {b : Binding} {op : HostOperation}

/-- A link is bound by name as it is made. -/
theorem Adds.binds (h : Adds home b) (hop : op.LinksVariable b.host) {v : VariableBinding}
    (hlink : v.link = b.host.lastLink + 1) (hname : v.name.isSome) :
    Adds home { b with host := op.after b.host, vars := b.vars ++ [v] } := by
  obtain ⟨id, owner, hlinks, hlast, hvars⟩ := hop.inserts
  have hmem : (b.vars ++ [v]).map (·.link) = b.variableLinks ++ [b.host.lastLink + 1] := by
    rw [List.map_append, variableLinks, List.map_singleton, hlink]
  -- the links that were there own what they owned
  have howned : (b.variableLinks ++ [b.host.lastLink + 1]).filterMap (op.after b.host).owned? =
      b.variableLinks.filterMap b.host.owned? ++ (if owner then [id] else []) := by
    have hold : b.variableLinks.filterMap (op.after b.host).owned? = b.variableLinks.filterMap b.host.owned? := by
      refine List.filterMap_congr fun link hmade => ?_
      have hne : link ≠ b.host.lastLink + 1 := fun he => Nat.not_succ_le_self _ (he ▸ h.made link hmade)
      rw [Host.owned_eq, hlinks, Directory.find_insert_ne _ hne, ← Host.owned_eq]
    rw [List.filterMap_append, hold, List.filterMap_cons, Host.owned_eq, hlinks, Directory.find_insert_self]
    cases owner <;> rfl
  refine ⟨op.numbered_after h.numbered, fun link hmade => ?_, ?_, h.results, ?_, ?_⟩
  · change link ∈ (b.vars ++ [v]).map (·.link) at hmade
    change link ≤ (op.after b.host).lastLink
    rw [hlast]
    rw [hmem] at hmade
    rcases List.mem_append.mp hmade with hmade | hmade
    · exact Nat.le_succ_of_le (h.made link hmade)
    · exact Nat.le_of_eq (List.mem_singleton.mp hmade)
  · intro w hw
    rcases List.mem_append.mp hw with hw | hw
    · exact h.named w hw
    · rwa [List.mem_singleton.mp hw]
  · rw [variableLinks]
    dsimp only
    rw [hmem, hlinks, Directory.insert_without _ (List.mem_append_right _ (List.mem_singleton_self _)),
      Directory.without_absent h.numbered.fresh, h.links]
  · rw [variableLinks]
    dsimp only
    rw [hmem, howned]
    rcases hvars with ⟨rfl, hvars⟩ | ⟨rfl, hfresh, v, hvars⟩
    · rw [hvars, if_neg Bool.false_ne_true, List.append_nil, h.vars]
    · rw [hvars, if_pos rfl, Directory.insert_without _ (List.mem_append_right _ (List.mem_singleton_self _)),
        Directory.without_absent hfresh, h.vars]

/-- The queue of events does not matter. -/
theorem Adds.settled {b' : Binding} (h : Adds home b) (hsettled : b.settled = b'.settled) : Adds home b' := by
  have hb : Adds home b.settled := ⟨h.numbered, h.made, h.named, h.results, h.links, h.vars⟩
  rw [hsettled] at hb
  exact ⟨hb.numbered, hb.made, hb.named, hb.results, hb.links, hb.vars⟩

/-- Links and names stay. -/
theorem Adds.same {vars : List VariableBinding} {parameters : List Parameter} (h : Adds home b)
    (hlinks : vars.map (·.link) = b.vars.map (·.link)) (hnames : vars.map (·.name) = b.vars.map (·.name)) :
    Adds home { b with vars := vars, parameters := parameters } := by
  have hsame : ({ b with vars := vars, parameters := parameters } : Binding).variableLinks = b.variableLinks := hlinks
  refine ⟨h.numbered, hsame ▸ h.made, fun v hv => ?_, h.results, hsame ▸ h.links, hsame ▸ h.vars⟩
  obtain ⟨w, hw, hname⟩ := List.mem_map.mp (hnames ▸ List.mem_map_of_mem hv : v.name ∈ b.vars.map (·.name))
  exact hname ▸ h.named w hw

end Binding

namespace ScriptState

open Binding

variable {κ : Type} {home : Host} {s : ScriptState κ}

/-- What an action makes of a script adds to the host. -/
def Adding {α : Type} (home : Host) (s : ScriptState κ) (m : ScriptAction κ α) : Prop := Adds home (m s).2.binding

theorem Adding.look {α : Type} {k : ScriptState κ → ScriptAction κ α} (h : Adding home s (k s)) :
    Adding home s (do k (← get)) := h

/-- Something is done, and then something is returned. -/
theorem Adding.andThen {α β : Type} {m : ScriptAction κ α} (h : Adding home s m) (b : β) :
    Adding home s (do let _ ← m; return b) := h

theorem bindVariable_adds {op : HostOperation} (h : Adds home s.binding) (hop : op.LinksVariable s.host)
    (name : String) :
    Adds home
      (Binding.bindVariable (some name) (s.host.lastLink + 1) (s.setHost (op.after s.host))).2.binding :=
  h.binds hop rfl rfl

theorem importStatement_adds (text : String) (h : Adds home s.binding) :
    Adding home s (Binding.importStatement text) := by
  unfold Binding.importStatement
  split
  · exact h
  · refine .look ?_
    split
    · exact h
    · exact bindVariable_adds h (.imports _) _

theorem exportStatement_adds (text : String) (h : Adds home s.binding) :
    Adding home s (Binding.exportStatement text) := by
  unfold Binding.exportStatement
  generalize (Text.cut ',' text).getD (text, "") = parts
  obtain ⟨name, csv⟩ := parts
  dsimp only
  generalize Text.trim csv = csv
  refine .look ?_
  split
  · exact h
  · rw [Adding, onHost_bind]
    cases hr : (s.host.exportVariable csv).2 with
    | error e =>
      rw [Host.exportVariable_fails hr]
      exact h
    | ok link =>
      obtain ⟨rfl, -, id, hid⟩ := Host.exportVariable_ok hr
      have hbound := bindVariable_adds h (.exports csv id hid) (Text.trim name)
      rw [HostOperation.after] at hbound
      exact hbound

theorem onChangeStatement_adds (text : String) (h : Adds home s.binding) :
    Adding home s (Binding.onChangeStatement text) := by
  unfold Binding.onChangeStatement
  split
  · exact h
  · exact h.same (setChangeLabel_map (fun _ _ => rfl) _ _ _) (setChangeLabel_map (fun _ _ => rfl) _ _ _)

/-- An external statement adds a link at most. -/
theorem statement_adds (x : ExternalWord) (text : String) (h : Adds home s.binding) :
    Adding home s (Binding.statement x text) := by
  unfold Binding.statement
  cases x with
  | extern_ => exact h
  | onChange => exact (onChangeStatement_adds text h).andThen true
  | import_ => exact importStatement_adds text h
  | export_ => exact exportStatement_adds text h

theorem link_adds (h : Adds home s.binding) : Adds home (Binding.link s).2.binding := by
  obtain ⟨output, hlink⟩ := link_eq s
  have hbinding : (Binding.linkParameters s.binding.parameters s).2.binding = s.binding :=
    linkParameters_binding s
  rw [hlink]
  change Adds home { (Binding.linkParameters s.binding.parameters s).2.binding with parameters := _, vars := _ }
  rw [hbinding]
  exact h.same (linkLabel_links _ _) (linkLabel_map (fun _ _ => rfl) _ _)

end ScriptState

open Binding ScriptState

variable {κ μ : Type} [NativeObject κ μ]

/-- Compiling in place of a script that was cleared adds links to the host, and what they own. -/
theorem compile_adds (i : Interpreter κ) (source : String) (hi : i.script.phase ≠ .running)
    (hvars : i.script.binding.vars = []) (hresults : i.script.binding.results = [])
    (hnumbered : i.script.host.Numbered) : Adds i.script.host (i.compile source).1.script.binding := by
  have hclear : Adds i.script.host i.clear.script.binding := by
    have hempty : i.clear.script.binding.variableLinks = [] := rfl
    have hhost : i.clear.script.binding.host = i.script.host := by
      simp [Interpreter.clear, Binding.clear, hvars, hresults, ScriptState.host]
    refine ⟨hhost ▸ hnumbered, by simp [hempty], fun v hv => absurd hv List.not_mem_nil, rfl, ?_, ?_⟩
    · rw [hempty, hhost, Directory.without_nil]
    · rw [hempty, hhost]
      exact Directory.without_nil _
  have hpreserves :
      Compiler.Preserves (declarations i.registry) fun s : ScriptState κ => Adds i.script.host s.binding :=
    ⟨fun _ _ h => h, fun text _ _ h => statement_adds _ text h⟩
  exact compile_keeps i source hi hpreserves (fun s h => link_adds h) (fun s t hst _ h => h.settled hst.binding) hclear

/-- Compiling that fails takes nothing from the host: links and variables that were there are what they were. What
the host has in addition are links that `import` and `export` statements have bound by name, and the variables that
they own. Clearing the script removes these, so that the host has exactly the links and the variables that it had. -/
theorem failed_compile_footprint (i j : Interpreter κ) (source : String) (hi : i.script.phase ≠ .running)
    (hvars : i.script.binding.vars = []) (hresults : i.script.binding.results = [])
    (hnumbered : i.script.host.Numbered) (hfailed : i.compile source = (j, .failed)) :
    (∀ link, i.script.host.links.contains link = true →
        j.script.host.links.find? link = i.script.host.links.find? link) ∧
      (∀ id, i.script.host.vars.contains id = true → j.script.host.vars.find? id = i.script.host.vars.find? id) ∧
      (∀ link, j.script.host.links.contains link = true → i.script.host.links.contains link = true ∨
        ∃ v ∈ j.script.binding.vars, v.link = link ∧ v.name.isSome) ∧
      (∀ id, j.script.host.vars.contains id = true → i.script.host.vars.contains id = true ∨ j.script.binding.Owns id) ∧
      j.clear.script.host.links = i.script.host.links ∧ j.clear.script.host.vars = i.script.host.vars := by
  have hadds : Adds i.script.host j.script.binding := by
    have hcompiled := compile_adds i source hi hvars hresults hnumbered
    rwa [hfailed] at hcompiled
  have hcleared : j.clear.script.host = j.script.binding.variableLinks.foldl Host.unlink j.script.binding.host := by
    have hresults : j.script.binding.resultLinks = [] := by rw [resultLinks, hadds.results, List.map_nil]
    rw [show j.clear.script.host = _ from clear_host j.script.binding, hresults, List.append_nil]
  rw [← hadds.links, ← hadds.vars]
  refine ⟨fun link hlink => Directory.find_of_without hlink, fun id hid => Directory.find_of_without hid,
    fun link hlink => ?_, fun id hid => ?_, ?_, ?_⟩
  · refine (Directory.contains_cases _ hlink).imp_right fun hbound => ?_
    obtain ⟨v, hv, rfl⟩ := List.mem_map.mp hbound
    exact ⟨v, hv, rfl, hadds.named v hv⟩
  · exact (Directory.contains_cases _ hid).imp_right fun howned => List.mem_filterMap.mp howned
  · rw [hcleared, Host.unlinkAll_links]
  · rw [hcleared, Host.unlinkAll_vars]

/-- Two statements bind names before compiling fails, and clearing undoes them. -/
theorem failed_statements_cleared :
    let i : Interpreter Empty := .new .empty true 0
    ∃ j, i.compile "export X,48; import Y,5; bogus;" = (j, .failed) ∧ j.script.host.linkCount = 2 ∧
      j.script.host.vars.contains 48 = true ∧ j.script.binding.Owns 48 ∧ j.clear.script.host.links.entries = [] ∧
      j.clear.script.host.vars.entries = [] := by
  intro i
  have hfailed : (i.compile "export X,48; import Y,5; bogus;").2 = .failed := by decide +kernel
  have hcount : (i.compile "export X,48; import Y,5; bogus;").1.script.host.linkCount = 2 := by decide +kernel
  have hthere : (i.compile "export X,48; import Y,5; bogus;").1.script.host.vars.contains 48 = true := by decide +kernel
  generalize hj : i.compile "export X,48; import Y,5; bogus;" = outcome at hfailed hcount hthere
  obtain ⟨j, result⟩ := outcome
  obtain rfl : result = .failed := hfailed
  have hnumbered : i.script.host.Numbered := fun _ _ hlink => nomatch hlink
  obtain ⟨-, -, -, howned, hlinks, hvars⟩ := failed_compile_footprint i j _ (by decide) rfl rfl hnumbered hj
  refine ⟨j, rfl, hcount, hthere, ?_, congrArg Directory.entries hlinks, congrArg Directory.entries hvars⟩
  exact (howned 48 hthere).resolve_left (by decide)

/-- A name is bound before compiling fails, and its link stays. -/
theorem failed_import_stays :
    let i : Interpreter Empty := .new .empty true 0
    i.script.phase ≠ .running ∧ i.script.binding.vars = [] ∧ i.script.binding.results = [] ∧ i.script.host.Numbered ∧
      (i.compile "import X,5; bogus;").2 = .failed ∧
      ¬((∀ link, (i.compile "import X,5; bogus;").1.script.host.links.find? link = i.script.host.links.find? link) ∧
        ∀ id, (i.compile "import X,5; bogus;").1.script.host.vars.contains id = i.script.host.vars.contains id) := by
  intro i
  have hnumbered : i.script.host.Numbered := fun _ _ hlink => nomatch hlink
  refine ⟨by decide, rfl, rfl, hnumbered, by decide +kernel, fun hsame => ?_⟩
  have hthere : ((i.compile "import X,5; bogus;").1.script.host.links.find? 1).isSome := by decide +kernel
  rw [hsame.1 1] at hthere
  cases hthere

end HostScript
