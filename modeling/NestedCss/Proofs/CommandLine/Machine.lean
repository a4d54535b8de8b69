import Mathlib.Data.List.Basic
import NestedCss.CommandLine.Machine

/-!
# What the command does to a machine

The command touches the output that it was told of and nothing else.

* `Machine.lookup?_put_of_ne`: what is elsewhere after a file was put somewhere;
* `Machine.KeepsBut`: machines that differ in one place at most;
* `Machine.keepsBut_create`, `Machine.keepsBut_write`: opening an output and writing to it, step by step;
* **`Machine.keepsBut_run`**: nothing but the output changes, and nothing at all if none is opened;
* **`Machine.read_of_run`**: what the output holds afterwards.
-/

namespace NestedCss.CommandLine

theorem bind_eq_ok {ε α β : Type} {x : Except ε α} {f : α → Except ε β} {b : β} :
    x >>= f = .ok b ↔ ∃ a, x = .ok a ∧ f a = .ok b := by
  cases x <;> simp [bind, Except.bind]

theorem guard_eq_ok {ε α : Type} {c : Prop} [Decidable c] {e : ε} {y : PUnit → Except ε α}
    {x : Except ε α} {a : α} :
    (if c then throw e >>= y else x) = .ok a ↔ ¬ c ∧ x = .ok a := by
  by_cases hc : c
  · rw [if_pos hc]
    exact ⟨fun h => (by cases h), fun h => absurd hc h.1⟩
  · rw [if_neg hc]
    exact ⟨fun h => ⟨hc, h⟩, And.right⟩

namespace Machine

variable {m m' m'' opened after : Machine} {place p q parent : Place} {bytes : List UInt8} {path name : Text}
  {names : List Text} {arguments : List Text} {s : Settings} {outcome : Outcome}

/-! ## What is where -/

theorem lookup_filter_ne (hp : p ≠ place) (entries : List (Place × Entry)) :
    (entries.filter (·.1 ≠ place)).lookup p = entries.lookup p := by
  induction entries with
  | nil => rfl
  | cons e entries ih =>
    by_cases he : e.1 = place
    · rw [List.filter_cons_of_neg (by simp [he]), ih, List.lookup_cons, beq_false_of_ne (he ▸ hp)]
    · rw [List.filter_cons_of_pos (by simp [he]), List.lookup_cons, List.lookup_cons, ih]

theorem lookup?_put_self (m : Machine) (place : Place) (bytes : List UInt8) :
    (m.put place bytes).lookup? place = some (.file bytes) := by
  simp [lookup?, put]

theorem any_isPrefixOf {entries : List (Place × Entry)} :
    (entries.any fun (below, _) => p.isPrefixOf below) = true ↔ ∃ e ∈ entries, p <+: e.1 := by
  simp only [List.any_eq_true, List.isPrefixOf_iff_prefix]

/-- Something is at a place if an entry is there or below. -/
theorem isSome_lookup? : (m.lookup? p).isSome ↔ ∃ e ∈ m.entries, p <+: e.1 := by
  rw [lookup?, Option.isSome_or, Bool.or_eq_true, List.lookup_isSome_iff, ← any_isPrefixOf]
  constructor
  · rintro (⟨e, he, hp⟩ | h)
    · exact any_isPrefixOf.mpr ⟨e, he, eq_of_beq hp ▸ List.prefix_refl p⟩
    · by_contra hany
      rw [if_neg hany] at h
      cases h
  · intro h
    rw [if_pos h]
    exact .inr rfl

/-- On the way to a place where something is there is something everywhere. -/
theorem isSome_lookup?_of_prefix (h : (m.lookup? q).isSome) (hpq : p <+: q) : (m.lookup? p).isSome := by
  obtain ⟨e, he, hq⟩ := isSome_lookup?.mp h
  exact isSome_lookup?.mpr ⟨e, he, hpq.trans hq⟩

/-- A file makes directories of the places on its way. Elsewhere it changes nothing, and neither there if
they were known before. -/
theorem lookup?_put_of_ne (hp : p ≠ place) (h : p <+: place → (m.lookup? p).isSome) :
    (m.put place bytes).lookup? p = m.lookup? p := by
  have hany : (∃ e ∈ (m.put place bytes).entries, p <+: e.1) ↔ ∃ e ∈ m.entries, p <+: e.1 := by
    rw [put, List.exists_mem_cons_iff]
    constructor
    · rintro (hpre | ⟨e, he, hpre⟩)
      · exact isSome_lookup?.mp (h hpre)
      · exact ⟨e, (List.mem_filter.mp he).1, hpre⟩
    · rintro ⟨e, he, hpre⟩
      by_cases heq : e.1 = place
      · exact .inl (heq ▸ hpre)
      · exact .inr ⟨e, List.mem_filter.mpr ⟨he, by simp [heq]⟩, hpre⟩
  have hlookup : (m.put place bytes).entries.lookup p = m.entries.lookup p := by
    rw [put, List.lookup_cons, beq_false_of_ne hp]
    exact lookup_filter_ne hp m.entries
  simp only [lookup?, hlookup, any_isPrefixOf, hany]

/-! ## Machines that differ in one place -/

/-- The second machine is the first one but for what is at `place`, and for what the streams that are written
to got besides. -/
structure KeepsBut (place : Place) (m m' : Machine) : Prop where
  lookup? : ∀ p, p ≠ place → m'.lookup? p = m.lookup? p
  workplace : m'.workplace = m.workplace
  input : m'.input = m.input
  output : m.output <+: m'.output
  errors : m.errors <+: m'.errors

namespace KeepsBut

theorem refl (place : Place) (m : Machine) : KeepsBut place m m where
  lookup? _ _ := rfl
  workplace := rfl
  input := rfl
  output := List.prefix_refl _
  errors := List.prefix_refl _

theorem trans (h : KeepsBut place m m') (h' : KeepsBut place m' m'') : KeepsBut place m m'' where
  lookup? p hp := (h'.lookup? p hp).trans (h.lookup? p hp)
  workplace := h'.workplace.trans h.workplace
  input := h'.input.trans h.input
  output := h.output.trans h'.output
  errors := h.errors.trans h'.errors

/-- A file is put where the places on the way are known. -/
theorem put (h : ∀ p, p <+: place → p ≠ place → (m.lookup? p).isSome) (bytes : List UInt8) :
    KeepsBut place m (m.put place bytes) where
  lookup? p hp := lookup?_put_of_ne hp fun hpre => h p hpre hp
  workplace := rfl
  input := rfl
  output := List.prefix_refl _
  errors := List.prefix_refl _

theorem isDirectory_eq (h : KeepsBut place m m') (hp : p ≠ place) : m'.isDirectory p = m.isDirectory p := by
  rw [isDirectory, isDirectory, h.lookup? p hp]

end KeepsBut

/-! ## Paths -/

theorem isDirectory_of_step (h : m.step p name = .ok q) : m.isDirectory p = true := by
  unfold step at h
  by_contra hdirectory
  rw [if_pos (by simpa using hdirectory)] at h
  cases h

theorem start_congr (h : m'.workplace = m.workplace) (path : Text) : m'.start path = m.start path := by
  unfold start
  rw [h]

theorem step_congr (h : m'.isDirectory p = m.isDirectory p) (name : Text) : m'.step p name = m.step p name := by
  unfold step
  rw [h]

/-- A name leads up, nowhere or down by itself. -/
theorem prefix_of_step (h : m.step parent name = .ok place) (hp : p <+: place) (hne : p ≠ place) :
    p <+: parent := by
  have hdirectory := isDirectory_of_step h
  unfold step at h
  rw [if_neg (by simp [hdirectory])] at h
  split at h
  · cases h
    exact hp
  · split at h
    · cases h
      exact hp.trans (List.dropLast_prefix parent)
    · split at h
      · cases h
      · cases h
        exact (List.prefix_concat_iff.mp hp).resolve_left hne

theorem walk_cons_eq_ok : m.walk p (name :: names) = .ok q ↔
    ∃ next, m.step p name = .ok next ∧ (m.lookup? next).isSome ∧ m.walk next names = .ok q := by
  rw [walk, bind_eq_ok]
  refine exists_congr fun next => and_congr_right fun _ => ?_
  cases hentry : m.lookup? next with
  | none => simp [bind, Except.bind, throw, throwThe, MonadExceptOf.throw]
  | some e => simp

theorem walk_concat_eq_ok : m.walk p (names ++ [name]) = .ok q ↔
    ∃ parent, m.walk p names = .ok parent ∧ m.step parent name = .ok q ∧ (m.lookup? q).isSome := by
  induction names generalizing p with
  | nil =>
    rw [List.nil_append, walk_cons_eq_ok]
    simp only [walk]
    grind
  | cons name' names ih =>
    rw [List.cons_append, walk_cons_eq_ok]
    simp only [ih, walk_cons_eq_ok]
    grind

/-- What is found through directories is found whatever is in a file. -/
theorem KeepsBut.walk_eq_ok (h : KeepsBut place m m') (hplace : m.isDirectory place = false)
    (hsome : (m'.lookup? place).isSome) (hwalk : m.walk p names = .ok q) : m'.walk p names = .ok q := by
  induction names generalizing p with
  | nil => exact hwalk
  | cons name names ih =>
    obtain ⟨next, hstep, hnext, hrest⟩ := walk_cons_eq_ok.mp hwalk
    have hp : p ≠ place := by
      rintro rfl
      rw [isDirectory_of_step hstep] at hplace
      cases hplace
    refine walk_cons_eq_ok.mpr ⟨next, ?_, ?_, ih hrest⟩
    · rw [step_congr (h.isDirectory_eq hp), hstep]
    · by_cases hne : next = place
      · rwa [hne]
      · rwa [h.lookup? next hne]

theorem KeepsBut.find_eq_ok (h : KeepsBut place m m') (hplace : m.isDirectory place = false)
    (hsome : (m'.lookup? place).isSome) (hfind : m.find path = .ok q) : m'.find path = .ok q := by
  obtain ⟨start, hstart, hwalk⟩ := bind_eq_ok.mp hfind
  exact bind_eq_ok.mpr ⟨start, by rw [start_congr h.workplace, hstart], h.walk_eq_ok hplace hsome hwalk⟩

/-! ## Opening -/

/-- Nothing but slashes is left out of a path that is not shorter then. -/
theorem dropWhile_slash (h : ¬ (path.reverse.dropWhile (· = '/')).reverse.length < path.length) :
    (path.reverse.dropWhile (· = '/')).reverse = path := by
  have hsuffix : path.reverse.dropWhile (· = '/') <:+ path.reverse := List.dropWhile_suffix _
  have hlength : (path.reverse.dropWhile (· = '/')).length = path.reverse.length := by
    have := hsuffix.length_le
    simp only [List.length_reverse] at h this ⊢
    omega
  rw [hsuffix.eq_of_length hlength, List.reverse_reverse]

/-- **What is opened to be written** is a device, or a file, made where nothing was or empty from now on. -/
theorem create_eq_ok (h : m.create path = .ok (place, opened)) :
    ∃ start parent, m.start path = .ok start ∧ m.walk start (Machine.names path).dropLast = .ok parent ∧
      m.step parent ((Machine.names path).getLastD []) = .ok place ∧ m.isDirectory place = false ∧
      ((m.lookup? place).isSome ∧ opened = m ∨ opened = m.put place []) := by
  unfold create at h
  obtain ⟨start, hstart, h⟩ := bind_eq_ok.mp h
  obtain ⟨parent, hwalk, h⟩ := bind_eq_ok.mp h
  obtain ⟨-, h⟩ := guard_eq_ok.mp h
  obtain ⟨hlength, h⟩ := guard_eq_ok.mp h
  obtain ⟨place', hstep, h⟩ := bind_eq_ok.mp h
  rw [dropWhile_slash hlength] at hwalk hstep
  have hplace : place' = place ∧ m.isDirectory place' = false ∧
      ((m.lookup? place').isSome ∧ opened = m ∨ opened = m.put place' []) := by
    unfold isDirectory
    split at h
    · cases h
    · next device hentry =>
      cases h
      exact ⟨rfl, by simp [hentry], .inl ⟨by simp [hentry], rfl⟩⟩
    · next hdirectory hdevice =>
      cases h
      exact ⟨rfl, by simpa using hdirectory, .inr rfl⟩
  obtain ⟨rfl, hdirectory, hopened⟩ := hplace
  exact ⟨start, parent, hstart, hwalk, hstep, hdirectory, hopened⟩

/-- To open an output changes nothing elsewhere: the directory that it is in was there before. -/
theorem keepsBut_create (h : m.create path = .ok (place, opened)) : KeepsBut place m opened := by
  obtain ⟨start, parent, -, -, hstep, -, ⟨-, rfl⟩ | rfl⟩ := create_eq_ok h
  · exact .refl place _
  · refine .put (fun p hp hne => ?_) []
    have hparent : (m.lookup? parent).isSome := by
      have hdirectory := isDirectory_of_step hstep
      unfold isDirectory at hdirectory
      rw [of_decide_eq_true hdirectory]
      rfl
    exact isSome_lookup?_of_prefix hparent (prefix_of_step hstep hp hne)

theorem isSome_lookup?_of_create (h : m.create path = .ok (place, opened)) : (opened.lookup? place).isSome := by
  obtain ⟨-, -, -, -, -, -, ⟨hsome, rfl⟩ | rfl⟩ := create_eq_ok h
  · exact hsome
  · rw [lookup?_put_self]
    rfl

/-- The path that was opened leads to what was opened. -/
theorem find_of_create (h : m.create path = .ok (place, opened)) : opened.find path = .ok place := by
  have hkeeps := keepsBut_create h
  have hsome := isSome_lookup?_of_create h
  obtain ⟨start, parent, hstart, hwalk, hstep, hdirectory, -⟩ := create_eq_ok h
  have hparent : parent ≠ place := by
    rintro rfl
    rw [isDirectory_of_step hstep] at hdirectory
    cases hdirectory
  have hnames : Machine.names path = (Machine.names path).dropLast ++ [(Machine.names path).getLastD []] := by
    have hne : Machine.names path ≠ [] := List.splitOn_ne_nil _ _
    rw [List.getLastD_eq_getLast?, List.getLast?_eq_some_getLast hne, Option.getD_some,
      List.dropLast_append_getLast hne]
  refine bind_eq_ok.mpr ⟨start, by rw [start_congr hkeeps.workplace, hstart], ?_⟩
  rw [hnames]
  exact walk_concat_eq_ok.mpr ⟨parent, hkeeps.walk_eq_ok hdirectory hsome hwalk,
    by rw [step_congr (hkeeps.isDirectory_eq hparent), hstep], hsome⟩

/-! ## Writing -/

theorem write_of_file (h : m.lookup? place = some (.file bytes)) (text : Text) :
    m.write place text = .ok (m.put place (Utf8.encode text)) := by
  rw [write, h]

/-- To write to what is there changes nothing elsewhere. -/
theorem keepsBut_write {text : Text} (hsome : (m.lookup? place).isSome) (h : m.write place text = .ok m') :
    KeepsBut place m m' := by
  unfold write at h
  split at h
  · split at h
    · cases h
      exact .refl place m
    · cases h
  · cases h
    exact { KeepsBut.refl place m with output := List.prefix_append _ _ }
  · cases h
    exact { KeepsBut.refl place m with errors := List.prefix_append _ _ }
  · cases h
    exact .refl place m
  · cases h
    exact .put (fun p hp _ => isSome_lookup?_of_prefix hsome hp) _

theorem read_of_find (hfind : m.find path = .ok place) (hfile : m.lookup? place = some (.file bytes)) :
    m.read path = .ok bytes := by
  refine bind_eq_ok.mpr ⟨place, hfind, ?_⟩
  rw [hfile]
  rfl

/-! ## The command -/

theorem run_bind {α β : Type} (x : StateM Machine α) (f : α → StateM Machine β) (m : Machine) :
    (x >>= f).run m = (f (x.run m).1).run (x.run m).2 := rfl

section

variable {α : Type} {action : Machine → Except SystemError (α × Machine)} {a : α} {e : SystemError}

theorem run_attempt_of_ok (h : action m = .ok (a, m')) : (attempt action).run m = (.ok a, m') := by
  simp [attempt, modifyGet, MonadStateOf.modifyGet, StateT.modifyGet, StateT.run, h, pure]

/-- What is refused leaves the machine as it is. -/
theorem run_attempt_of_error (h : action m = .error e) : (attempt action).run m = (.error e, m) := by
  simp [attempt, modifyGet, MonadStateOf.modifyGet, StateT.modifyGet, StateT.run, h, pure]

end

theorem system_create (path : Text) : system.create path = attempt (·.create path) := rfl

theorem system_write (place : Place) (text : Text) :
    system.write place text = attempt fun m => return ((), ← m.write place text) := rfl

theorem run_read (path : Text) (m : Machine) : (system.read path).run m = (m.read path, m) := rfl

/-- What the command makes of the stylesheet that it finds on the machine. -/
def compiled (m : Machine) (s : Settings) : Except Text (List FileMessage × Except CompileError Text) :=
  ((compileInput system s).run m).1

/-- To read the stylesheet changes nothing. -/
theorem compileInput_run (m : Machine) (s : Settings) : (compileInput system s).run m = (m.compiled s, m) := by
  refine Prod.ext rfl ?_
  unfold compileInput
  cases s.input with
  | none =>
    have hinput : (system.readInput.run m) = (m.input, m) := rfl
    rw [run_bind, hinput]
    cases Utf8.decode m.input <;> rfl
  | some path =>
    dsimp only
    rw [run_bind, run_read]
    cases m.read path <;> rfl

theorem compiled_of_input (hinput : s.input = some path) (hread : m.read path = .ok bytes) :
    m.compiled s = .ok (compileFile (fun _ => .ok bytes) s.options path) := by
  rw [compiled, compileInput, hinput]
  dsimp only
  rw [run_bind, run_read, hread]
  rfl

/-- **What becomes of the machine** once the output is open, if there is one. If there is CSS it is written
there, and if not, or if that is refused, all stays as it is. -/
theorem compileTo_run {output : Option Place} (h : (compileTo system s output).run m = (outcome, after)) :
    (outcome.code = 0 ∧ ∃ messages css, m.compiled s = .ok (messages, .ok css) ∧
        (output = none → outcome.stdout = css ∧ after = m) ∧
        ∀ place, output = some place → m.write place css = .ok after) ∨
      outcome.code ≠ 0 ∧ after = m := by
  rw [compileTo, run_bind, compileInput_run] at h
  cases hcompiled : m.compiled s with
  | error details =>
    rw [hcompiled] at h
    cases h
    exact .inr ⟨Nat.succ_ne_zero _, rfl⟩
  | ok result =>
    obtain ⟨messages, result⟩ := result
    rw [hcompiled] at h
    cases result with
    | error e =>
      dsimp only at h
      split at h <;> cases h <;> exact .inr ⟨Nat.succ_ne_zero _, rfl⟩
    | ok css =>
      cases output with
      | none =>
        cases h
        exact .inl ⟨rfl, messages, css, rfl, fun _ => ⟨rfl, rfl⟩, fun _ h => by cases h⟩
      | some place =>
        dsimp only at h
        rw [run_bind, system_write] at h
        cases hwrite : m.write place css with
        | error e =>
          rw [run_attempt_of_error (by rw [hwrite]; rfl)] at h
          cases h
          exact .inr ⟨Nat.succ_ne_zero _, rfl⟩
        | ok m' =>
          rw [run_attempt_of_ok (by rw [hwrite]; rfl)] at h
          cases h
          refine .inl ⟨rfl, messages, css, rfl, fun h => (by cases h), fun _ h => ?_⟩
          cases h
          exact hwrite

/-- The arguments name an output, and `opened` is the machine once that is open, at `place`. -/
def Opens (m : Machine) (arguments : List Text) (s : Settings) (path : Text) (place : Place)
    (opened : Machine) : Prop :=
  Arguments.read arguments = .ok (.compile s) ∧ s.output = some path ∧ m.create path = .ok (place, opened)

theorem run_of_opens (h : m.Opens arguments s path place opened) :
    (run system arguments).run m = (compileTo system s (some place)).run opened := by
  obtain ⟨hread, houtput, hcreate⟩ := h
  rw [run, hread]
  dsimp only
  rw [houtput]
  dsimp only
  rw [run_bind, system_create, run_attempt_of_ok hcreate]

/-- Without an output that can be opened nothing happens to the machine. -/
theorem eq_or_opens (h : (run system arguments).run m = (outcome, after)) :
    after = m ∨ ∃ s path place opened, m.Opens arguments s path place opened := by
  rw [run] at h
  cases hread : Arguments.read arguments with
  | error e =>
    rw [hread] at h
    cases h
    exact .inl rfl
  | ok request =>
    rw [hread] at h
    cases request with
    | version =>
      cases h
      exact .inl rfl
    | compile s =>
      cases houtput : s.output with
      | none =>
        dsimp only at h
        rw [houtput] at h
        obtain ⟨-, _, _, -, hnone, -⟩ | ⟨-, hafter⟩ := compileTo_run h
        · exact .inl (hnone rfl).2
        · exact .inl hafter
      | some path =>
        cases hcreate : m.create path with
        | ok result => exact .inr ⟨s, path, _, _, hread, houtput, hcreate⟩
        | error e =>
          dsimp only at h
          rw [houtput] at h
          dsimp only at h
          rw [run_bind, system_create, run_attempt_of_error hcreate] at h
          cases h
          exact .inl rfl

/-- **The command changes nothing but its output**, and without one, or if it cannot be opened, nothing at
all. -/
theorem keepsBut_run (h : (run system arguments).run m = (outcome, after)) :
    after = m ∨ ∃ s path place opened, m.Opens arguments s path place opened ∧ KeepsBut place m after := by
  refine (eq_or_opens h).imp_right ?_
  rintro ⟨s, path, place, opened, hopens⟩
  have hcreate : m.create path = .ok (place, opened) := hopens.2.2
  refine ⟨s, path, place, opened, hopens, (keepsBut_create hcreate).trans ?_⟩
  rw [run_of_opens hopens] at h
  obtain ⟨-, _, _, -, -, hwrite⟩ | ⟨-, rfl⟩ := compileTo_run h
  · exact keepsBut_write (isSome_lookup?_of_create hcreate) (hwrite place rfl)
  · exact .refl place _

/-- **What the output holds.** A file is empty as soon as it is open, also for the command itself, should it be
the input too. In the end it holds the CSS if the command succeeded, and else it is still empty. -/
theorem read_of_run (hopens : m.Opens arguments s path place opened)
    (hfile : opened.lookup? place = some (.file [])) (h : (run system arguments).run m = (outcome, after)) :
    (s.input = some path → opened.compiled s = .ok (compileFile (fun _ => .ok []) s.options path)) ∧
      ((outcome.code = 0 ∧ ∃ messages css, opened.compiled s = .ok (messages, .ok css) ∧
          after.read path = .ok (Utf8.encode css)) ∨
        outcome.code ≠ 0 ∧ after.read path = .ok []) := by
  have hfind := find_of_create hopens.2.2
  have hopened : opened.read path = .ok [] := read_of_find hfind hfile
  refine ⟨fun hinput => compiled_of_input hinput hopened, ?_⟩
  rw [run_of_opens hopens] at h
  obtain ⟨hcode, messages, css, hcompiled, -, hwrite⟩ | ⟨hcode, rfl⟩ := compileTo_run h
  · refine .inl ⟨hcode, messages, css, hcompiled, ?_⟩
    have hafter := hwrite place rfl
    rw [write_of_file hfile] at hafter
    cases hafter
    have hkeeps : KeepsBut place opened (opened.put place (Utf8.encode css)) :=
      .put (fun p hp _ => isSome_lookup?_of_prefix (isSome_lookup?_of_create hopens.2.2) hp) _
    have hself := lookup?_put_self opened place (Utf8.encode css)
    exact read_of_find (hkeeps.find_eq_ok (by simp [isDirectory, hfile]) (by simp [hself]) hfind) hself
  · exact .inr ⟨hcode, hopened⟩

example : ∃ place opened,
    (ofFiles [(['a'], [])] []).Opens [['a'], ['b']] { input := some ['a'], output := some ['b'] } ['b'] place opened ∧
      opened.lookup? place = some (.file []) :=
  ⟨_, _, ⟨rfl, rfl, rfl⟩, rfl⟩

/-! ## Files -/

/-- The files that a machine is made with are the files in its working directory. -/
theorem files_ofFiles (files : List (Text × List UInt8)) (input : List UInt8) :
    (ofFiles files input).files = files := by
  have hplace (path : Text) : ['/'].intercalate ((workingDirectory ++ Machine.names path).drop
      workingDirectory.length) = path := by
    rw [List.drop_left, Machine.names, List.intercalate_splitOn]
  have hpre (path : Text) : workingDirectory.isPrefixOf (workingDirectory ++ Machine.names path) = true :=
    List.isPrefixOf_iff_prefix.mpr (List.prefix_append _ _)
  unfold ofFiles Machine.files
  simp only [List.filterMap_append, List.filterMap_map, Function.comp_def, hpre, if_true, hplace]
  simp

end Machine

end NestedCss.CommandLine
