import HostScript.Command.Options
/-!
# Flags written together

Flags behind one dash mean what they mean one by one, up to the errors. Where nothing is waited for, the switches at
the front of a bundle can be split off, and what stands right behind `-e` or `-f` can be an argument of its own, for
`-f` unless it starts with a dash.
-/

set_option autoImplicit false

namespace HostScript.Options

namespace Progress

variable {p : Progress} {x y v : String}

/-! ## Bundles -/

/-- A bundle is read flag by flag, unless it is the mark behind which there are scripts only. -/
theorem read_bundle {arg : String} {flag : Char} {flags : List Char} (hp : p.expected = .any)
    (harg : arg.toList = '-' :: flag :: flags) (hmark : flag :: flags ≠ ['-']) :
    p.read arg = p.readFlags (flag :: flags) := by
  rw [read, hp]
  change p.readAny arg = _
  rw [readAny, harg]
  split
  · rename_i heq
    exact absurd (List.cons.inj heq).2 hmark
  · rename_i heq
    rw [(List.cons.inj heq).2]
  · rename_i hother
    exact absurd rfl (hother flag flags)

/-- Switches are read one after another, whatever flags stand behind them, and what is waited for stays. -/
theorem readFlags_append {switches : List Char} (hswitches : ∀ c ∈ switches, c ∈ ['d', 'l', 't']) (p : Progress) :
    ∃ q : Progress, q.expected = p.expected ∧ p.readFlags switches = .ok q ∧
      ∀ flags, p.readFlags (switches ++ flags) = q.readFlags flags := by
  induction switches generalizing p with
  | nil => exact ⟨p, rfl, rfl, fun _ => rfl⟩
  | cons c switches ih =>
    obtain ⟨hc, hmore⟩ := List.forall_mem_cons.mp hswitches
    simp only [List.mem_cons, List.not_mem_nil, or_false] at hc
    rcases hc with rfl | rfl | rfl
    · exact ih hmore { p with options := { p.options with debug := true } }
    · exact ih hmore { p with options := { p.options with listNames := true } }
    · exact ih hmore { p with options := { p.options with typed := true } }

/-! ## One argument for two -/

theorem exists_chars (h : x ≠ "") : ∃ c cs, x.toList = c :: cs :=
  List.exists_cons_of_ne_nil (mt String.toList_eq_nil_iff.mp h)

/-- Whether an argument is read like two others wherever nothing is waited for. -/
def Splits (arg first second : String) : Prop :=
  ∀ p : Progress, p.expected = .any → p.read arg = (p.read first).bind (·.read second)

/-- Switches can be split off at the front of a bundle. -/
theorem splits_switches (hx : x ≠ "") (hswitches : ∀ c ∈ x.toList, c ∈ ['d', 'l', 't']) (hy : y ≠ "")
    (hmark : y ≠ "-") : Splits ("-" ++ x ++ y) ("-" ++ x) ("-" ++ y) := by
  intro p hp
  obtain ⟨c, cs, hcs⟩ := exists_chars hx
  obtain ⟨d, ds, hds⟩ := exists_chars hy
  have hc : c ≠ '-' := by
    rintro rfl
    exact absurd (hswitches '-' (hcs ▸ List.mem_cons_self)) (by decide)
  have hswitch (flags : List Char) : c :: flags ≠ ['-'] := fun h => hc (List.cons.inj h).1
  have hflags : d :: ds ≠ ['-'] := fun h => hmark (String.toList_inj.mp (hds.trans h))
  obtain ⟨q, hq, hread, happend⟩ := readFlags_append (hcs ▸ hswitches) p
  have hbundle : p.read ("-" ++ x ++ y) = p.readFlags (c :: cs ++ d :: ds) :=
    read_bundle hp (by rw [String.toList_append, String.toList_append, hcs, hds]; rfl) (hswitch _)
  have hfirst : p.read ("-" ++ x) = p.readFlags (c :: cs) :=
    read_bundle hp (by rw [String.toList_append, hcs]; rfl) (hswitch cs)
  have hsecond : q.read ("-" ++ y) = q.readFlags (d :: ds) :=
    read_bundle (hq.trans hp) (by rw [String.toList_append, hds]; rfl) hflags
  rw [hbundle, hfirst, happend, hread, ← hsecond]
  rfl

/-- What stands right behind `-e` is its argument. -/
theorem splits_expression (hv : v ≠ "") : Splits ("-e" ++ v) "-e" v := by
  intro p hp
  obtain ⟨c, cs, hcs⟩ := exists_chars hv
  have hbundle : p.read ("-e" ++ v) = p.readFlags ('e' :: c :: cs) :=
    read_bundle hp (by rw [String.toList_append, hcs]; rfl) (by simp)
  have hflag : p.read "-e" = p.readFlags ['e'] := read_bundle hp rfl (by simp)
  rw [hbundle, hflag]
  calc p.readFlags ('e' :: c :: cs) = .ok (p.setExpression (String.ofList (c :: cs))) := rfl
    _ = .ok (p.setExpression v) := by rw [← hcs, String.ofList_toList]
    _ = (p.readFlags ['e']).bind (·.read v) := rfl

/-- What stands right behind `-f` is its argument, and so is the next one unless it starts with a dash. -/
theorem splits_file (hv : v ≠ "") (hdash : v.toList.head? ≠ some '-') : Splits ("-f" ++ v) "-f" v := by
  intro p hp
  obtain ⟨c, cs, hcs⟩ := exists_chars hv
  have hbundle : p.read ("-f" ++ v) = p.readFlags ('f' :: c :: cs) :=
    read_bundle hp (by rw [String.toList_append, hcs]; rfl) (by simp)
  have hflag : p.read "-f" = p.readFlags ['f'] := read_bundle hp rfl (by simp)
  have hfile : (p.setSource .nowhere .file).read v = .ok (p.setSource (.file v) .any) := if_neg hdash
  rw [hbundle, hflag]
  calc p.readFlags ('f' :: c :: cs) = .ok (p.setSource (.file (String.ofList (c :: cs))) .any) := rfl
    _ = .ok (p.setSource (.file v) .any) := by rw [← hcs, String.ofList_toList]
    _ = (p.readFlags ['f']).bind (·.read v) := hfile.symm

end Progress

/-- Where an argument is read like two others, the whole command line is. -/
theorem parse_splits {arg first second : String} (h : Progress.Splits arg first second) (rest : List String) :
    parse (arg :: rest) = parse (first :: second :: rest) := by
  rw [parse, parse, List.foldlM_cons, List.foldlM_cons, h _ rfl]
  cases Progress.start.read first <;> rfl

/-- **Bundles**: for every command line, switches in front of other flags can be written behind a dash of their own, an
expression can stand right behind `-e` or be the next argument, and so can a settings file behind `-f` if it does not
start with a dash. Either way the same is asked for, or the same is wrong. -/
theorem parse_bundled (rest : List String) :
    (∀ x y : String, x ≠ "" → (∀ c ∈ x.toList, c ∈ ['d', 'l', 't']) → y ≠ "" → y ≠ "-" →
      parse (("-" ++ x ++ y) :: rest) = parse (("-" ++ x) :: ("-" ++ y) :: rest)) ∧
    (∀ v : String, v ≠ "" → parse (("-e" ++ v) :: rest) = parse ("-e" :: v :: rest)) ∧
    (∀ v : String, v ≠ "" → v.toList.head? ≠ some '-' →
      parse (("-f" ++ v) :: rest) = parse ("-f" :: v :: rest)) :=
  ⟨fun _ _ hx hswitches hy hmark => parse_splits (Progress.splits_switches hx hswitches hy hmark) rest,
    fun _ hv => parse_splits (Progress.splits_expression hv) rest,
    fun _ hv hdash => parse_splits (Progress.splits_file hv hdash) rest⟩

/-- The last flag of a bundle takes the next argument all the same, an expression may start with a dash, and what is
wrong behind the settings file stays wrong. -/
theorem bundles_taken_apart :
    parse ["-dtf", "my.rc"] = parse ["-dt", "-f", "my.rc"] ∧ parse ["-e-1"] = parse ["-e", "-1"] ∧
      parse ["-fmy.rc", "-z"] = parse ["-f", "my.rc", "-z"] :=
  ⟨(parse_bundled ["my.rc"]).1 "dt" "f" (by decide) (by simp) (by decide) (by decide),
    (parse_bundled []).2.1 "-1" (by decide), (parse_bundled ["-z"]).2.2 "my.rc" (by decide) (by decide)⟩

end HostScript.Options
