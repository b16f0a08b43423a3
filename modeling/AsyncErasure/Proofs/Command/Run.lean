import AsyncErasure.Proofs.Command.Arguments
import AsyncErasure.Proofs.Command.FileTree

namespace AsyncErasure.Command

variable {lib : Libraries} {t : FileTree} {settings : Settings} {program : Option Path}
  {args : List Path} {job : Job}

/-- One step of a program with a state, and then the others. -/
theorem run_bind_of {σ α β : Type} {x : StateM σ α} {f : α → StateM σ β} {s s' : σ} {a : α}
    (h : x.run s = (a, s')) : (x >>= f).run s = (f a).run s' := by
  show (let p := x.run s; (f p.1).run p.2) = _
  rw [h]

namespace FileTree

theorem run_read (path : Path) : (access.read path).run t = (t.read path, t) := rfl

theorem run_write (path : Path) (text : String) : (access.write path text).run t =
    match t.write path text with
    | .ok t' => (.ok (), t')
    | .error fault => (.error fault, t) := by
  have hget : (get : StateM FileTree FileTree).run t = (t, t) := rfl
  refine (run_bind_of hget).trans ?_
  cases t.write path text <;> rfl

end FileTree

namespace Job

def runOn (job : Job) (lib : Libraries) (t : FileTree) (tool : String) : Outcome × FileTree :=
  (job.run lib FileTree.access tool).run t

theorem runOn_eq (tool : String) : job.runOn lib t tool =
    match t.read job.file with
    | .error fault => (⟨1, "", [], some (.cannotRead job.file.display fault)⟩, t)
    | .ok source =>
      match job.produce lib tool source with
      | (events, .error e) => (⟨1, "", events, some (.cannotParse job.file.display e)⟩, t)
      | (events, .ok text) =>
        match job.output with
        | none => (⟨0, text, events, none⟩, t)
        | some path =>
          match t.write path text with
          | .ok t' => (⟨0, "", events, none⟩, t')
          | .error fault => (⟨1, "", events, some (.cannotWrite path.display fault)⟩, t) := by
  unfold runOn run
  rw [run_bind_of (FileTree.run_read job.file)]
  cases t.read job.file with
  | error fault => rfl
  | ok source =>
    rcases hproduced : job.produce lib tool source with ⟨events, e | text⟩
    · simp only [hproduced]
      rfl
    simp only [hproduced]
    cases job.output with
    | none => rfl
    | some path =>
      have hwrite := FileTree.run_write (t := t) path text
      cases hresult : t.write path text with
      | ok t' =>
        simp only [hresult] at hwrite ⊢
        rw [run_bind_of hwrite]
        rfl
      | error fault =>
        simp only [hresult] at hwrite ⊢
        rw [run_bind_of hwrite]
        rfl

/-- Whether a source gives a text does not hang on the name of the tool. -/
theorem isOk_produce (tool tool' source : String) :
    (job.produce lib tool source).2.isOk = (job.produce lib tool' source).2.isOk := by
  unfold produce
  cases Token.scan source with
  | error e => rfl
  | ok tokens =>
    simp only
    cases Module.ofTokens tokens with
    | error e => rfl
    | ok m => simp only [Except.isOk, Except.toBool]

/-- Nothing is written before all else has gone well. -/
theorem runOn_failed {tool : String} (h : (job.runOn lib t tool).1.exit ≠ 0) :
    (job.runOn lib t tool).2 = t ∧ (job.runOn lib t tool).1.stdout = "" := by
  rw [runOn_eq] at h ⊢
  split
  · exact ⟨rfl, rfl⟩
  split
  · exact ⟨rfl, rfl⟩
  split
  · simp_all
  split
  · simp_all
  · exact ⟨rfl, rfl⟩

/-- With an output file, what the job would have written goes there. -/
theorem runOn_output {tool : String} {path : Path} (hpath : job.output = some path)
    (h : (job.runOn lib t tool).1.exit = 0) : (job.runOn lib t tool).1.stdout = "" ∧
      ∃ alone, Job.runOn { job with output := none } lib t tool = (alone, t) ∧ alone.exit = 0 ∧
        t.write path alone.stdout = .ok (job.runOn lib t tool).2 := by
  have hproduce (source : String) :
      Job.produce { job with output := none } lib tool source = job.produce lib tool source := rfl
  rw [runOn_eq] at h ⊢
  rw [runOn_eq]
  simp only [hproduce]
  cases hread : t.read job.file with
  | error fault => simp [hread] at h
  | ok source =>
    rcases hproduced : job.produce lib tool source with ⟨events, e | text⟩
    · simp [hread, hproduced] at h
    cases hwrite : t.write path text with
    | error fault => simp [hread, hproduced, hpath, hwrite] at h
    | ok t' =>
      simp only [hproduced, hpath, hwrite]
      exact ⟨trivial, _, rfl, rfl, hwrite⟩

end Job

/-- A run on a tree of files: its outcome, and the tree afterwards. -/
def runOn (lib : Libraries) (t : FileTree) (settings : Settings) (program : Option Path)
    (args : List Path) : Outcome × FileTree :=
  (runWith lib FileTree.access settings program args).run t

theorem runOn_eq : runOn lib t settings program args =
    match lib.intent args with
    | .help => (⟨0, lib.help, [], none⟩, t)
    | .misuse => (⟨2, "", [], none⟩, t)
    | .work job =>
      let result := job.runOn lib t (toolName program)
      ({ result.1 with log := result.1.log.filter (settings.keeps lib) }, result.2) := by
  unfold runOn runWith
  cases lib.intent args with
  | help => rfl
  | misuse => rfl
  | work job => exact run_bind_of rfl

/-- A run that fails leaves every file as it was and writes nothing. One that goes well with an
output file writes nothing either and changes that file only, which then holds what the run prints
without it. What the environment says about the log changes neither the exit code nor what is
written. -/
theorem runOn_allOrNothing (hlib : lib.AsDocumented) (t : FileTree) (program : Option Path)
    (args : List Path) (value? other? : String → Option Path) :
    let result := runOn lib t (.ofVariables value?) program args
    (result.1.exit ≠ 0 → result.2 = t ∧ result.1.stdout = "") ∧
    (∀ job path, lib.intent args = .work job → job.output = some path →
      result.1.exit = 0 → result.1.stdout = "" ∧
        (∃ entry, t.Names path entry ∧ ∀ place ≠ entry, result.2.find? place = t.find? place) ∧
        ∃ before after alone, args = before ++ path :: after ∧
          lib.intent (before ++ after) = .work { job with output := none } ∧
          runOn lib t (.ofVariables value?) program (before ++ after) = (alone, t) ∧
          alone.exit = 0 ∧ result.2.read path = .ok alone.stdout) ∧
    let result' := runOn lib t (.ofVariables other?) program args
    result'.1.exit = result.1.exit ∧ result'.1.stdout = result.1.stdout ∧ result'.2 = result.2 := by
  refine ⟨fun h => ?_, fun job path hjob hpath h => ?_, ?_⟩
  · rw [runOn_eq] at h ⊢
    cases hintent : lib.intent args with
    | help => simp [hintent] at h
    | misuse => exact ⟨rfl, rfl⟩
    | work job =>
      simp only [hintent] at h ⊢
      exact Job.runOn_failed h
  · obtain ⟨before, after, hargs, hwithout⟩ := hlib.output hjob hpath
    rw [runOn_eq, hjob] at h ⊢
    obtain ⟨hstdout, alone, halone, hexit, hwrite⟩ := Job.runOn_output hpath h
    obtain ⟨entry, hentry, htree⟩ := FileTree.write_eq_ok hwrite
    let logged : Outcome :=
      { alone with log := alone.log.filter ((Settings.ofVariables value?).keeps lib) }
    -- The run without the output file logs what its settings keep, and writes nothing.
    have hlogged : runOn lib t (.ofVariables value?) program (before ++ after) = (logged, t) := by
      simp only [runOn_eq, hwithout, halone]
      rfl
    refine ⟨hstdout, ⟨entry, hentry, fun place hplace => ?_⟩, before, after, logged, hargs,
      hwithout, hlogged, hexit, ?_⟩
    · show (job.runOn lib t (toolName program)).2.find? place = t.find? place
      rw [htree]
      exact FileTree.find?_put_of_ne hplace
    · show (job.runOn lib t (toolName program)).2.read path = .ok alone.stdout
      rw [htree]
      exact FileTree.read_put hentry
  · simp only [runOn_eq]
    cases lib.intent args <;> exact ⟨rfl, rfl, rfl⟩

/-- A file of one line, whose name is no text. -/
def FileTree.single : FileTree := FileTree.empty.put [.ofText "work", [0xff]]
    (.file "x = 1\n".toUTF8)

/-- The result may go into the file that is read. -/
theorem exit_inPlace (settings : Settings) (program : Option Path) :
    (runOn .standard .single settings program [[0xff], [0xff]]).1.exit = 0 := by
  let job : Job := ⟨[0xff], some [0xff], false⟩
  have hjob : Libraries.standard.intent [[0xff], [0xff]] = .work job := by decide +kernel
  have hnames : FileTree.empty.Names [0xff] [.ofText "work", [0xff]] := .inl rfl
  have hread : FileTree.single.read [0xff] = .ok "x = 1\n" := FileTree.read_put hnames
  have hproduce (tool : String) : (job.produce .standard tool "x = 1\n").2.isOk := by
    have htool : (job.produce .standard "tool" "x = 1\n").2.isOk := by decide +kernel
    rwa [Job.isOk_produce _ "tool"]
  have hwrite (text : String) : ∃ t', FileTree.single.write [0xff] text = .ok t' :=
    ⟨_, FileTree.write_of_names text (by decide +kernel) (.inr ⟨_, FileTree.locate_put hnames⟩)⟩
  rw [runOn_eq, hjob]
  show (job.runOn .standard .single (toolName program)).1.exit = 0
  have hproduce := hproduce (toolName program)
  rw [Job.runOn_eq]
  simp only [job, hread] at hproduce ⊢
  split
  · rename_i hproduced
    rw [hproduced] at hproduce
    cases hproduce
  · rename_i text _
    obtain ⟨t', hwrite⟩ := hwrite text
    simp only [hwrite]

theorem runOn_allOrNothing_inPlace : Libraries.standard.AsDocumented ∧
    (runOn .standard .single (.ofVariables fun _ => none) none [[0xff], [0xff]]).1.exit = 0 ∧
      ∃ entry, FileTree.single.Names [0xff] entry ∧ ∀ place ≠ entry,
        (runOn .standard .single (.ofVariables fun _ => none) none [[0xff], [0xff]]).2.find? place =
          FileTree.single.find? place := by
  have hlib := Libraries.asDocumented_standard
  have hexit := exit_inPlace (.ofVariables fun _ => none) none
  have h := (runOn_allOrNothing hlib .single none [[0xff], [0xff]] (fun _ => none)
    fun _ => none).2.1 ⟨[0xff], some [0xff], false⟩ [0xff] (by decide +kernel) rfl hexit
  exact ⟨hlib, hexit, h.2.1⟩

end AsyncErasure.Command
