import HostScript.Proofs.ChangeLabels
import HostScript.Proofs.ExternalTexts
import HostScript.Proofs.NamedValues
import HostScript.Proofs.StructuredPrograms
/-!
# Imported names

A source of `import` statements binds each name that it states to a host variable, by a link that is made for it. From
then on the name reads what this variable holds, and an assignment writes it through the link. The first thousand
bindings of a script have numbers of their own; those behind them share theirs with parameters. A name that starts with
an underscore cannot be imported this way, since the underscore is taken for a delimiter.
-/

set_option autoImplicit false

namespace HostScript

open HostScript.Text HostScript.Number HostScript.Structured
open HostScript.Token (IsName endsName skipWhite)

/-! ## Statements -/

/-- A name, and the number of the host variable that it is bound to. -/
structure Import where
  name : String
  id : Int

namespace Import

/-- What stands behind the keyword. -/
def text (m : Import) : List Char := m.name.toList ++ ',' :: (toString m.id).toList

def statement (m : Import) : String := "import " ++ m.name ++ "," ++ toString m.id ++ ";"

/-- One statement for each pair. -/
def source : List Import → String
  | [] => ""
  | m :: imports => m.statement ++ source imports

theorem length_le_source (imports : List Import) : imports.length ≤ (source imports).toList.length := by
  induction imports with
  | nil => exact Nat.le_refl _
  | cons m imports ih =>
    have hstatement : (source (m :: imports)).toList = ("import ".toList ++ m.name.toList ++ ",".toList ++
        (toString m.id).toList ++ ";".toList) ++ (source imports).toList := by
      simp only [source, statement, String.toList_append]
    rw [hstatement]
    simp only [List.length_append, List.length_cons]
    have hkeyword : "import ".toList.length = 7 := rfl
    omega

/-- The name starts with a letter, and the number has a magnitude that fits. -/
structure Plain (m : Import) : Prop where
  letter : m.name.toList.head?.any Char.isAlpha = true
  name : IsName m.name.toList
  small : m.id.natAbs < 2 ^ 63

variable {m : Import} {imports : List Import}

theorem statement_toList (m : Import) : m.statement.toList = "import".toList ++ ([' '] ++ (m.text ++ [';'])) := by
  simp [statement, text]

theorem source_solid (m : Import) (imports : List Import) : Solid (source (m :: imports)).toList := by
  rw [source, String.toList_append, statement_toList]
  exact Compiler.solid_of_nameChar (a := 'i') (by decide)

/-- The characters behind the keyword. -/
theorem Plain.mem_text (h : m.Plain) {c : Char} (hc : c ∈ m.text) : isNameChar c = true ∨ c = ',' ∨ c = '-' := by
  rcases List.mem_append.mp hc with hname | hc
  · exact .inl (h.name.chars c hname)
  rcases List.mem_cons.mp hc with rfl | hnumber
  · exact .inr (.inl rfl)
  rw [toList_toString, List.mem_append] at hnumber
  rcases hnumber with hsign | hdigit
  · right
    right
    split at hsign <;> simp_all
  · exact .inl (isNameChar_iff.mpr (.inr (.inr (isDigit_of_toDigits hdigit))))

theorem Plain.unblank (h : m.Plain) {c : Char} (hc : c ∈ m.text) : isBlank c = false := by
  rcases h.mem_text hc with hname | rfl | rfl
  · exact isBlank_of_isNameChar hname
  · decide
  · decide

theorem Plain.undelimited (h : m.Plain) : Compiler.Undelimited m.text where
  start := by
    obtain ⟨c, name, hname⟩ : ∃ c name, m.name.toList = c :: name := by
      cases hchars : m.name.toList with
      | nil => exact nomatch hchars ▸ h.letter
      | cons c name => exact ⟨c, name, rfl⟩
    have hletter : c.isAlpha = true := by simpa [hname] using h.letter
    simp [text, hname, Char.isAlphanum, hletter]
  plain := by
    intro hmem
    rcases h.mem_text hmem with hname | hcomma | hminus
    · exact absurd hname (by decide)
    · exact absurd hcomma (by decide)
    · exact absurd hminus (by decide)
  trimmed := fun c hc => h.unblank (List.mem_of_mem_getLast? hc)

/-- The two parts are what was stated. -/
theorem Plain.parts (h : m.Plain) :
    cut ',' (String.ofList m.text) = some (m.name, toString m.id) ∧ trim m.name = m.name ∧
      trim (toString m.id) = toString m.id := by
  have hcomma : ',' ∉ m.name.toList := fun hmem => absurd (h.name.chars ',' hmem) (by decide)
  refine ⟨?_, trim_unblank fun c hc => ?_, trim_unblank fun c hc => ?_⟩
  · simp [cut, text, cutChars_append hcomma]
  · exact h.unblank (List.mem_append_left _ hc)
  · exact h.unblank (List.mem_append_right _ (List.mem_cons_of_mem _ hc))

theorem Plain.readInteger (h : m.Plain) :
    (Number.readInteger (toString m.id).toList).value = Int64.ofInt m.id := by
  have hheld : held m.id = m.id := by
    have hsmall := h.small
    simp only [held, maxMagnitude]
    omega
  rw [readInteger_toString, hheld]

end Import

/-! ## What a statement binds -/

namespace ScriptState

variable {κ : Type} {s : ScriptState κ} {m : Import}

/-- The script with one more binding, by a new link. -/
def importing (s : ScriptState κ) (m : Import) : ScriptState κ :=
  (Binding.bindVariable (some m.name) (s.host.lastLink + 1)
    (s.setHost (s.host.importVariable (Int64.ofInt m.id)).1)).2

theorem importing_eq (s : ScriptState κ) (m : Import) :
    ∃ arena handle, s.importing m =
      { s with
        arena := arena
        binding :=
          { s.binding with
            host := (s.host.importVariable (Int64.ofInt m.id)).1
            vars := s.binding.vars ++ [⟨some m.name, s.host.lastLink + 1, handle, .disarmed, true, none⟩] } } :=
  ⟨_, _, rfl⟩

theorem importing_boundNames (s : ScriptState κ) (m : Import) :
    (s.importing m).binding.boundNames = s.binding.boundNames ++ [m.name] := by
  obtain ⟨arena, handle, heq⟩ := s.importing_eq m
  rw [heq, Binding.boundNames, List.filterMap_append]
  rfl

theorem importStatement_imports (hm : m.Plain) (hfree : m.name ∉ s.binding.boundNames) :
    Binding.importStatement (String.ofList m.text) s = (true, s.importing m) := by
  obtain ⟨hcut, hname, hid⟩ := hm.parts
  have hne : ¬(m.name = "" ∨ (s.binding.named? m.name).isSome) := by
    rintro (hempty | hbound)
    · have hstart := hm.name.start
      rw [hempty] at hstart
      cases hstart
    · exact hfree ((Binding.named_isSome _ _).mp hbound)
  unfold Binding.importStatement
  rw [hcut]
  dsimp only
  rw [hname, hid, hm.readInteger]
  change (if m.name = "" ∨ (s.binding.named? m.name).isSome then (pure false : ScriptAction κ Bool) else _) s = _
  rw [if_neg hne]
  rfl

end ScriptState

/-! ## Names that come with the host -/

namespace ScriptState

variable {κ μ : Type} [NativeObject κ μ] (registry : Registry κ) {s : ScriptState κ} {name : String}

/-- A script that is bound sees the names that come with the host before all others. -/
theorem find_hostName {i : Identifier (ScriptId μ)} (hs : s.bound = true) (hi : s.findHostName? name = some i) :
    (engine registry).find? s name = some (i.map .scoped) := by
  have hfind : findName? s name = some i := by
    rw [findName?, if_pos hs, hi]
    rfl
  exact Engine.find_of_scope hfind

theorem meaning_import (hs : s.bound = true) : (declarations registry).meaning s "import" = .external .import_ := by
  have htable : Identifier.find? (ScriptId.hostTable : List (Identifier (ScriptId μ))) "import" =
      some (ScriptId.ofExternal "import" .import_) := rfl
  have hfind : s.findHostName? "import" = some (ScriptId.ofExternal (μ := μ) "import" .import_) := by
    rw [findHostName?, htable]
    rfl
  simp only [declarations, find_hostName registry hs hfind]
  rfl

/-- A name that no table of the host has is that of its first binding. -/
theorem find_bound (hs : s.bound = true) (hnew : (engine (μ := μ) registry).find? s name = none) {t : ScriptState κ}
    (ht : t.bound = true) {k : Nat} (hk : indexOf? (·.name) name t.binding.vars = some k) (registry' : Registry κ) :
    (engine registry').find? t name = some ⟨.variable, name, 0, .scoped (ScriptId.ofBinding (μ := μ) k)⟩ := by
  have htable : Identifier.find? (ScriptId.hostTable : List (Identifier (ScriptId μ))) name = none := by
    cases hi : Identifier.find? (ScriptId.hostTable : List (Identifier (ScriptId μ))) name with
    | none => rfl
    | some i =>
      have hfind : s.findHostName? name = some i := by
        rw [findHostName?, hi]
        rfl
      rw [find_hostName registry hs hfind] at hnew
      cases hnew
  have hfind : t.findHostName? name = some ⟨.variable, name, 0, ScriptId.ofBinding (μ := μ) k⟩ := by
    rw [findHostName?, htable, hk]
    rfl
  exact find_hostName registry' ht hfind

end ScriptState

/-! ## Compiling -/

namespace Compiler

open ScriptState (declarations)

variable {κ μ : Type} [NativeObject κ μ] (registry : Registry κ) {s : Compilation (ScriptState κ)} {cs : List Char}
  {imports : List Import}

/-- An `import` statement binds its name. -/
theorem import_does {statement : Compile (ScriptState κ) Unit} (hbound : s.declared.bound = true) {m : Import}
    (hm : m.Plain) (hfree : m.name ∉ s.declared.binding.boundNames) (h : s.cursor.At (m.statement.toList ++ cs)) :
    ∃ c, c.Reads cs ∧ Does (statementWith (declarations registry) statement) s ()
      { move s c with declared := s.declared.importing m } := by
  have hdeclares : (declarations registry).external .import_ (String.ofList m.text) s.declared =
      (s.declared.importing m, true) := by
    change ((Binding.importStatement _ s.declared).2, (Binding.importStatement _ s.declared).1) = _
    rw [ScriptState.importStatement_imports hm hfree]
  have hmeaning : (declarations registry).meaning s.declared (String.ofList "import".toList) = .external .import_ :=
    ScriptState.meaning_import registry hbound
  have hat : s.cursor.At ("import".toList ++ ([' '] ++ (m.text ++ ';' :: cs))) := by
    rw [m.statement_toList] at h
    simpa using h
  have hgap : Gap [' '] := .white rfl .nil
  obtain ⟨c, hc, hdoes⟩ := statementWith_external (by decide) (List.all_eq_true.mp rfl) hmeaning hgap hm.undelimited
    (apart_cons rfl) (by rw [hdeclares]) hat
  rw [hdeclares] at hdoes
  exact ⟨c, hc, hdoes⟩

/-- A source of them binds one name after the other. -/
theorem imports_do {n m : Nat} (hbound : s.declared.bound = true) (hplain : ∀ m ∈ imports, m.Plain)
    (hdistinct : (imports.map (·.name)).Nodup) (hfree : ∀ m ∈ imports, m.name ∉ s.declared.binding.boundNames)
    (hm : imports.length < m) (h : s.cursor.Reads (Import.source imports).toList) :
    ∃ c, Does (statements (statementAt (declarations registry) (n + 1)) m) s ()
      { move s c with declared := imports.foldl ScriptState.importing s.declared } := by
  obtain ⟨m, rfl⟩ := Nat.exists_eq_add_of_le' (Nat.zero_lt_of_lt hm)
  induction imports generalizing m s with
  | nil => exact statements_nothing (declarations registry) n m h.at
  | cons first imports ih =>
    obtain ⟨hfirst, hplain⟩ := List.forall_mem_cons.mp hplain
    obtain ⟨hfirstFree, hfree⟩ := List.forall_mem_cons.mp hfree
    obtain ⟨hother, hdistinct⟩ := List.nodup_cons.mp hdistinct
    rw [Import.source, String.toList_append] at h
    obtain ⟨c, hc, hdoes⟩ := import_does registry hbound hfirst hfirstFree h.at
    cases imports with
    | nil =>
      have hend := (Cursor.reads_nil (hc.at.skipWhite solid_nil)).1
      exact ⟨_, statements_end hdoes hend⟩
    | cons second imports =>
      have hread := hc.at.skipWhite (Import.source_solid second imports)
      obtain ⟨m, rfl⟩ : ∃ k, m = k + 1 := ⟨m - 1, by simp only [List.length_cons] at hm; omega⟩
      have hfreeNow : ∀ x ∈ second :: imports, x.name ∉ (s.declared.importing first).binding.boundNames := by
        intro x hx hmem
        rw [ScriptState.importing_boundNames, List.mem_append, List.mem_singleton] at hmem
        rcases hmem with hmem | hsame
        · exact hfree x hx hmem
        · exact hother (List.mem_map.mpr ⟨x, hx, hsame⟩)
      have hnext : c.skipWhite.atEnd = false := by
        rw [Import.source, String.toList_append, Import.statement_toList] at hread
        exact Cursor.Reads.not_atEnd hread
      let t : Compilation (ScriptState κ) := { move s c with declared := s.declared.importing first }
      have hfewer := Nat.lt_of_succ_lt_succ hm
      obtain ⟨c', hrest⟩ := @ih (move t c.skipWhite) hbound hplain hdistinct hfreeNow hread m hfewer
      exact ⟨c', statements_next hdoes hnext hrest⟩

end Compiler

/-! ## Compiled imports -/

namespace ScriptState

variable {κ : Type} {start s : ScriptState κ} {imports : List Import} {m : Import}

/-- A script in which so much was imported: one binding for each pair, each by a link of its own. -/
structure Imported (start s : ScriptState κ) (imports : List Import) : Prop where
  bound : s.bound = start.bound
  names : s.binding.vars.map (·.name) = imports.map (some ·.name)
  links : s.binding.variableLinks = List.range' (start.host.lastLink + 1) imports.length
  lastLink : s.host.lastLink = start.host.lastLink + imports.length
  targets : ∀ k m, imports[k]? = some m →
    s.host.links.find? (start.host.lastLink + 1 + k) = some ⟨.variable (Int64.ofInt m.id), false⟩
  unasked : ∀ v ∈ s.binding.vars, v.changeLabel = none

theorem imported_nil (h : start.binding.vars = []) : Imported start start [] where
  bound := rfl
  names := by rw [h]; rfl
  links := by rw [Binding.variableLinks, h]; rfl
  lastLink := rfl
  targets _ _ hm := by cases hm
  unasked := by rw [h]; exact List.forall_mem_nil _

theorem Imported.importing (h : Imported start s imports) (m : Import) :
    Imported start (s.importing m) (imports ++ [m]) := by
  obtain ⟨arena, handle, heq⟩ := s.importing_eq m
  have hlast : s.host.lastLink + 1 = start.host.lastLink + 1 + imports.length := by
    rw [h.lastLink]
    omega
  rw [heq]
  refine ⟨h.bound, ?_, ?_, ?_, fun k n hn => ?_, fun v hv => ?_⟩
  · rw [List.map_append, List.map_append, h.names]
    rfl
  · rw [Binding.variableLinks, List.map_append, List.length_append, List.length_singleton, List.range'_concat,
      ← h.links, Nat.one_mul, ← hlast]
    rfl
  · rw [List.length_append, List.length_singleton, ← Nat.add_assoc, ← h.lastLink]
    rfl
  · change (s.host.links.insert (s.host.lastLink + 1) ⟨.variable (Int64.ofInt m.id), false⟩).find? _ = _
    rw [Directory.find_insert, hlast]
    by_cases hk : k < imports.length
    · rw [if_neg (by omega)]
      rw [List.getElem?_append_left hk] at hn
      exact h.targets k n hn
    · rw [List.getElem?_append_right (Nat.not_lt.mp hk)] at hn
      obtain ⟨hlt, hm⟩ := List.getElem?_eq_some_iff.mp hn
      rw [List.length_singleton] at hlt
      obtain rfl : k = imports.length := by omega
      rw [if_pos rfl, ← hm]
      simp
  · rcases List.mem_append.mp hv with hv | hv
    · exact h.unasked v hv
    · rw [List.mem_singleton.mp hv]

theorem Imported.foldl {before : List Import} (h : Imported start s before) (imports : List Import) :
    Imported start (imports.foldl ScriptState.importing s) (before ++ imports) := by
  induction imports generalizing s before with
  | nil => rwa [List.append_nil]
  | cons m imports ih =>
    rw [← List.singleton_append, ← List.append_assoc]
    exact ih (h.importing m)

/-- Where no label is asked for, linking leaves the bindings as they are. -/
theorem link_unasked (h : ∀ v ∈ s.binding.vars, v.changeLabel = none) :
    ∃ t, Binding.link s = (.ok (), t) ∧ t.program = s.program ∧ t.bound = s.bound ∧ t.binding.vars = s.binding.vars ∧
      t.host = s.host := by
  have hbinding : (Binding.linkParameters s.binding.parameters s).2.binding = s.binding :=
    linkParameters_binding s
  have hbound : (Binding.linkParameters s.binding.parameters s).2.bound = s.bound :=
    (linkParameters_carries _).keeps_objects (fun _ _ => rfl) (fun _ _ => rfl) s
  have hok : (Binding.link s).1 = .ok () := by
    rw [link_found, hbinding, Binding.missingLabels, List.filterMap_eq_nil_iff.mpr h]
    rfl
  have hlink : Binding.link s = (.ok (), (Binding.link s).2) := Prod.ext hok rfl
  obtain ⟨hlabelled, hprogram⟩ := Binding.link_labelled hlink
  have hvars : s.binding.vars.map (Binding.linkLabel s.program) = s.binding.vars :=
    (List.map_congr_left fun v hv => by rw [Binding.linkLabel, h v hv]; rfl).trans (List.map_id _)
  obtain ⟨output, heq⟩ := link_eq s
  refine ⟨_, hlink, hprogram, ?_, hlabelled.vars.trans hvars, ?_⟩
  · rw [heq]
    exact hbound
  · rw [heq]
    exact congrArg (·.host) hbinding

theorem Imported.of_same {t : ScriptState κ} (h : Imported start s imports) (hbound : t.bound = s.bound)
    (hvars : t.binding.vars = s.binding.vars) (hhost : t.host = s.host) : Imported start t imports where
  bound := hbound.trans h.bound
  names := hvars ▸ h.names
  links := by
    rw [Binding.variableLinks, hvars]
    exact h.links
  lastLink := hhost ▸ h.lastLink
  targets := hhost ▸ h.targets
  unasked := hvars ▸ h.unasked

end ScriptState

open ScriptState

variable {κ μ : Type} [NativeObject κ μ]

/-- A source of imports is compiled, and all of them are made. -/
theorem Interpreter.compile_imports {i : Interpreter κ} {imports : List Import} (hidle : i.script.phase ≠ .running)
    (hbound : i.script.bound = true) (hplain : ∀ m ∈ imports, m.Plain) (hdistinct : (imports.map (·.name)).Nodup) :
    (i.compile (Import.source imports)).2 = .done ∧
      Imported i.clear.script (i.compile (Import.source imports)).1.script imports := by
  have hread : (Cursor.ofSource (Import.source imports)).Reads (Import.source imports).toList := utf8_eq_bytes _
  have hrounds : imports.length < (Cursor.ofSource (Import.source imports)).rest.length + 1 := by
    have hbytes : (Cursor.ofSource (Import.source imports)).rest = bytes (Import.source imports).toList := hread
    have hlength := Nat.le_trans (Import.length_le_source imports) (length_le_bytes _)
    rw [hbytes]
    omega
  obtain ⟨c, hdoes⟩ := Compiler.imports_do (s := ⟨.ofSource (Import.source imports), .empty, i.clear.script⟩)
    (n := (Cursor.ofSource (Import.source imports)).rest.length) i.registry hbound hplain hdistinct
    (fun _ _ => List.not_mem_nil) hrounds hread
  have hcompiled : Compiler.compile (declarations i.registry) (Import.source imports) i.clear.script =
      (.compiled .empty, imports.foldl ScriptState.importing i.clear.script) := by
    have hrun : (Compiler.statements (Compiler.statementAt (declarations i.registry)
        ((Cursor.ofSource (Import.source imports)).rest.length + 1))
          ((Cursor.ofSource (Import.source imports)).rest.length + 1)).run
            ⟨.ofSource (Import.source imports), .empty, i.clear.script⟩ = (.ok (), _) := hdoes
    rw [Compiler.compile, hrun]
    rfl
  have hempty : Imported i.clear.script i.clear.script [] := imported_nil rfl
  have hdeclared := hempty.foldl imports
  rw [List.nil_append] at hdeclared
  generalize imports.foldl ScriptState.importing i.clear.script = s at hcompiled hdeclared
  obtain ⟨t, hlink, hprogram, hboundLinked, hvars, hhost⟩ := link_unasked (s := { s with program := .empty })
    hdeclared.unasked
  have hsettled : t.program.link = (t.program, none) := by
    rw [hprogram]
    exact Program.link_settled _ (List.forall_mem_nil _)
  have hlinked : ({ i.clear with script := s } : Interpreter κ).link .empty = ({ i.clear with script := t }, none) := by
    simp only [Interpreter.link, hlink, hsettled]
  rw [compile_eq hidle, hcompiled]
  dsimp only
  rw [hlinked]
  obtain ⟨main, output, hbegin⟩ := begin_eq { i.clear with script := t }
  refine ⟨rfl, ?_⟩
  dsimp only
  rw [hbegin]
  exact (hdeclared.of_same hboundLinked hvars hhost).of_same rfl rfl rfl

/-! ## Using a name -/

/-- The current value of a variable, which is invalid if there is none. -/
def Host.current (host : Host) (id : Int64) : Value := ((host.vars.find? id).map (·.current)).getD .invalid

namespace ScriptState

/-- The script after a value was written through a link. -/
def writing (s : ScriptState κ) (link : Nat) (w : Value) : ScriptState κ :=
  s.setHost (s.host.setVariable link w (s.skipsEvent link)).1

/-- The objects go through links that the script has, and this is the link of the binding at that place. -/
structure Holds (s : ScriptState κ) (k link : Nat) : Prop where
  known : s.arena.All s.binding.Knows
  link : s.binding.variableLinks[k]? = some link

variable (registry : Registry κ) {start s : ScriptState κ} {imports : List Import} {m : Import} {k link : Nat}

omit [NativeObject κ μ] in
theorem Imported.indexOf (h : Imported start s imports) (hdistinct : (imports.map (·.name)).Nodup)
    (hm : imports[k]? = some m) : indexOf? (·.name) m.name s.binding.vars = some k := by
  have hname : ∀ j (hj : j < s.binding.vars.length), imports[j]?.map (some ·.name) = some s.binding.vars[j].name := by
    intro j hj
    have hat := congrArg (·[j]?) h.names
    simpa [hj] using hat.symm
  have hlength : s.binding.vars.length = imports.length := by simpa using congrArg List.length h.names
  obtain ⟨hk, -⟩ := List.getElem?_eq_some_iff.mp hm
  have hkvars : k < s.binding.vars.length := hlength ▸ hk
  rw [indexOf?, List.findIdx?_eq_some_iff_getElem]
  refine ⟨hkvars, ?_, fun j hjk => ?_⟩
  · have hfound := hname k hkvars
    rw [hm] at hfound
    simpa using hfound.symm
  · intro hfound
    have hbefore := hname j (Nat.lt_trans hjk hkvars)
    rw [eq_of_beq hfound] at hbefore
    have hsame : (imports.map (·.name))[j]? = (imports.map (·.name))[k]? := by
      rw [List.getElem?_map, List.getElem?_map, hm]
      simpa using hbefore
    have hj : j < (imports.map (·.name)).length := by simpa using Nat.lt_trans hjk hk
    exact Nat.ne_of_lt hjk ((List.getElem?_inj hj hdistinct).mp hsame)

omit [NativeObject κ μ] in
theorem Imported.linkAt (h : Imported start s imports) (hm : imports[k]? = some m) :
    s.binding.variableLinks[k]? = some (start.host.lastLink + 1 + k) := by
  obtain ⟨hk, -⟩ := List.getElem?_eq_some_iff.mp hm
  rw [h.links, List.getElem?_range' hk, Nat.one_mul]

omit [NativeObject κ μ] in
theorem Holds.binding (h : s.Holds k link) : ∃ v, s.binding.vars[k]? = some v ∧ v.link = link := by
  have hlink := h.link
  rw [Binding.variableLinks, List.getElem?_map] at hlink
  exact Option.map_eq_some_iff.mp hlink

/-- A bound name reads the variable that its link is attached to. -/
theorem Holds.read (h : s.Holds k link) {id : Int64} (htarget : s.host.target? link = some (.variable id)) :
    access (μ := μ) registry (.bound k) .read s = (ScriptFunction.give (s.host.current id), s) := by
  obtain ⟨v, hv, rfl⟩ := h.binding
  have hvariable : s.host.linkedVariable? v.link = s.host.vars.find? id := by
    rw [Host.linkedVariable?, htarget]
  change Binding.accessBound k .read s = _
  simp only [Binding.accessBound, ofVariable, bind, StateT.bind, get, getThe, MonadStateOf.get, StateT.get, pure, hv]
  rw [hvariable, Host.current]
  cases s.host.vars.find? id <;> rfl

/-- It is written through the link. -/
theorem Holds.write (h : s.Holds k link) (w : Value) :
    access (μ := μ) registry (.bound k) (.write w) s = (ScriptFunction.give w, s.writing link w) := by
  obtain ⟨v, hv, rfl⟩ := h.binding
  change Binding.accessBound k (.write w) s = _
  simp only [Binding.accessBound, bind, StateT.bind, get, getThe, MonadStateOf.get, StateT.get, pure, hv]
  rfl

/-- What an expression does leaves the binding there. -/
theorem holds_kept : KeptByUses (μ := μ) registry fun s _ => s.Holds k link where
  access s _ x a h _ := by
    have hdoes := access_does registry h.known x a
    obtain ⟨more, hmore⟩ := hdoes.step.links
    obtain ⟨hk, -⟩ := List.getElem?_eq_some_iff.mp h.link
    refine ⟨hdoes.known h.known, ?_⟩
    rw [← hmore, List.getElem?_append_left hk]
    exact h.link
  release s _ o h := by
    have hdoes := release_changes registry o (s := s)
    exact ⟨hdoes.known h.known, h.link⟩

/-- An identifier of the script gives what it is accessed for. -/
theorem engine_gives {nested : Evaluation (ScriptState κ)} {i : Identifier (Symbol (ScriptId μ))} {x : ScriptId μ}
    (hi : i.id = .scoped x) {a : Access} {v : Value} {t : ScriptState κ}
    (h : access registry x a s = (ScriptFunction.give v, t)) (errors : ErrorState) :
    ((engine registry).access nested i a).run.run ⟨s, errors⟩ = (.ok (.value v), ⟨t, errors⟩) := by
  have hdispatch : ((engine registry).dispatch nested i.id a) ⟨s, errors⟩ = (.ok (some (.value v)), ⟨t, errors⟩) := by
    rw [hi]
    change (((access registry x a s).1.map fun r => r.map Operand.value : Answer Operand),
      (⟨(access registry x a s).2, errors⟩ : Session (ScriptState κ))) = _
    rw [h]
    rfl
  have hlift : (liftM ((engine registry).dispatch nested i.id a : StateM (Session (ScriptState κ)) (Answer Operand)) :
      Eval (ScriptState κ) (Answer Operand)).run.run ⟨s, errors⟩ = (.ok (.ok (some (.value v))), ⟨t, errors⟩) := by
    change (Except.ok ((engine registry).dispatch nested i.id a ⟨s, errors⟩).1,
      ((engine registry).dispatch nested i.id a ⟨s, errors⟩).2) = _
    rw [hdispatch]
  unfold Engine.access
  exact run_bind_ok hlift _

end ScriptState

/-- A name that reads the host variable of a number, and that writes it through a link. -/
structure Interpreter.Binds (i : Interpreter κ) (name : String) (id : Int64) (link : Nat) : Prop where
  target : i.script.host.target? link = some (.variable id)
  /-- As an operand, whatever stands behind it. -/
  operand (term : TermReader (ScriptState κ)) (errors : ErrorState) {rest : List Char} : Apart rest →
    (∀ c ∈ (skipWhite rest).head?, endsName c = true) →
    ∃ target, (((engine i.registry).evaluator 0).operand term (name.toList ++ rest)).run.run ⟨i.script, errors⟩ =
      (.ok ⟨.value (i.script.host.current id), target, skipWhite rest⟩, ⟨i.script, errors⟩)
  read : i.calculate name = ({ i with errors := .clear }, some (i.script.host.current id))
  assign {text : String} {j : Interpreter κ} {v : Value} : (∃ c ∈ text.toList, isWhite c = false) →
    i.calculate text = (j, some v) →
    i.calculate (name ++ " = " ++ text) =
      (j.modifyScript (·.writing link ((i.script.host.current id).promoted v).2),
        some (((i.script.host.current id).promoted v).1.assign ((i.script.host.current id).promoted v).2))

theorem ScriptState.Holds.binds {i : Interpreter κ} {name : String} {id : Int64} {k link : Nat}
    (h : i.script.Holds k link) (hk : k < ScriptId.bindingLimit) (hname : IsName name.toList)
    (hfind : (engine i.registry).find? i.script name =
      some ⟨.variable, name, 0, .scoped (ScriptId.ofBinding (μ := μ) k)⟩)
    (htarget : i.script.host.target? link = some (.variable id)) : i.Binds name id link := by
  have hbound : ScriptId.ofBinding (μ := μ) k = .bound k := if_pos hk
  rw [hbound] at hfind
  have hread : ∀ errors, ((engine i.registry).access ((engine i.registry).calculate 0)
      ⟨.variable, name, 0, .scoped (ScriptId.bound (μ := μ) k)⟩ .read).run.run ⟨i.script, errors⟩ =
        (.ok (.value (i.script.host.current id)), ⟨i.script, errors⟩) :=
    engine_gives i.registry rfl (h.read i.registry htarget)
  refine ⟨htarget, fun term errors {rest} hrest hends => ?_, ?_, fun {text j v} hblank htext => ?_⟩
  · exact ⟨_, Evaluator.operand_name term hname hrest hends (by rwa [String.ofList_toList]) rfl (hread errors)⟩
  · unfold Interpreter.calculate
    rw [(engine i.registry).calculate_name hname hfind rfl (hread .clear)]
  · rcases hcalculate : (engine i.registry).calculate 1 text ⟨i.script, i.errors⟩ with ⟨w, ⟨state, errors⟩⟩
    have hstate : state.Holds k link := by
      have hkept := calculate_invariant (holds_kept i.registry) text i.script i.errors h
      rwa [hcalculate] at hkept
    unfold Interpreter.calculate at htext
    rw [hcalculate] at htext
    obtain ⟨rfl, rfl⟩ := Prod.mk.inj htext
    have hyields := (engine i.registry).yields_of_calculate hcalculate
    let x := i.script.host.current id
    have hwrite : ((engine i.registry).access ((engine i.registry).calculate 0)
        ⟨.variable, name, 0, .scoped (ScriptId.bound (μ := μ) k)⟩ (.write (x.promoted v).2)).run.run ⟨state, errors⟩ =
          (.ok (.value (x.promoted v).2), ⟨state.writing link (x.promoted v).2, errors⟩) :=
      engine_gives i.registry rfl (hstate.write i.registry _) errors
    unfold Interpreter.calculate
    rw [(engine i.registry).calculate_assignment (s := ⟨i.script, i.errors⟩) ⟨fun _ => rfl, fun _ _ => rfl⟩ hname hfind
      rfl (hread .clear) hblank hyields hwrite]
    rfl

/-- Every name of a source of imports reads the host variable of its number, and writes it through a link of its own. -/
theorem Interpreter.imports_bind {i : Interpreter κ} {imports : List Import} (hidle : i.script.phase ≠ .running)
    (hbound : i.script.bound = true) (hplain : ∀ m ∈ imports, m.Plain) (hdistinct : (imports.map (·.name)).Nodup)
    (hnew : ∀ m ∈ imports, (engine (μ := μ) i.registry).find? i.clear.script m.name = none) :
    (i.compile (Import.source imports)).2 = .done ∧
      ∀ k m, imports[k]? = some m → k < ScriptId.bindingLimit →
        let link := i.clear.script.host.lastLink + 1 + k
        ∀ host : Host, host.target? link = (i.compile (Import.source imports)).1.script.host.target? link →
          ((i.compile (Import.source imports)).1.modifyScript (·.setHost host)).Binds m.name
            (Int64.ofInt m.id) link := by
  obtain ⟨hdone, himported⟩ := i.compile_imports hidle hbound hplain hdistinct
  have hknown := compile_known i (Import.source imports) hidle
  refine ⟨hdone, fun k m hm hk => ?_⟩
  intro link host htarget
  have hmem := List.mem_of_getElem? hm
  have hfind := find_bound (s := i.clear.script) i.registry hbound (hnew m hmem) (himported.bound.trans hbound)
    (himported.indexOf hdistinct hm) (i.compile (Import.source imports)).1.registry
  have hlinked : host.target? link = some (.variable (Int64.ofInt m.id)) := by
    rw [htarget, Host.target?, himported.targets k m hm]
    rfl
  exact ScriptState.Holds.binds ⟨hknown, himported.linkAt hm⟩ hk (hplain m hmem).name hfind hlinked

/-- Two names are imported; one of the variables is defined afterwards. -/
theorem level_and_gate_bind :
    let i : Interpreter Empty := .new .empty true 0
    let source := "import level,48;import gate_2,-7;"
    let host := ((i.compile source).1.script.host.defineVariable "48").1
    let j := (i.compile source).1.modifyScript (·.setHost host)
    (i.compile source).2 = .done ∧ host.vars.contains 48 = true ∧ host.vars.contains (-7) = false ∧
      j.Binds "level" 48 1 ∧ j.Binds "gate_2" (-7) 2 := by
  intro i source host j
  have hplain : ∀ m ∈ [⟨"level", 48⟩, ⟨"gate_2", -7⟩], Import.Plain m := by
    have hlevel : Import.Plain ⟨"level", 48⟩ := ⟨by decide, ⟨by decide, List.all_eq_true.mp rfl, by decide⟩, by decide⟩
    have hgate : Import.Plain ⟨"gate_2", -7⟩ := ⟨by decide, ⟨by decide, List.all_eq_true.mp rfl, by decide⟩, by decide⟩
    simpa using ⟨hlevel, hgate⟩
  have hnew : ∀ m ∈ [(⟨"level", 48⟩ : Import), ⟨"gate_2", -7⟩],
      (engine (μ := Empty) i.registry).find? i.clear.script m.name = none := by
    decide +kernel
  have hsource : Import.source [⟨"level", 48⟩, ⟨"gate_2", -7⟩] = source := by decide +kernel
  obtain ⟨hdone, hbinds⟩ := Interpreter.imports_bind (i := i) (by decide) rfl hplain (by decide) hnew
  rw [hsource] at hdone hbinds
  have htargets : ∀ link ∈ [1, 2], host.target? link = (i.compile source).1.script.host.target? link := by
    decide +kernel
  refine ⟨hdone, by decide +kernel, by decide +kernel, ?_, ?_⟩
  · exact hbinds 0 ⟨"level", 48⟩ rfl (by decide) host (htargets 1 (by decide))
  · exact hbinds 1 ⟨"gate_2", -7⟩ rfl (by decide) host (htargets 2 (by decide))

/-- An underscore in front is taken for a delimiter, which is never found again. -/
theorem underscored_import_fails :
    let i : Interpreter Empty := .new .empty true 0
    IsName "_x".toList ∧ (engine (μ := Empty) i.registry).find? i.clear.script "_x" = none ∧
      Import.source [⟨"_x", 48⟩] = "import _x,48;" ∧ (i.compile "import _x,48;").2 = .failed := by
  refine ⟨⟨by decide, List.all_eq_true.mp rfl, by decide⟩, ?_, by decide +kernel, by decide +kernel⟩
  decide +kernel

end HostScript
