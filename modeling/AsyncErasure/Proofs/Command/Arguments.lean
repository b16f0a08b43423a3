import AsyncErasure.Command.Run

namespace AsyncErasure.Command

namespace Intent

structure IsName (ended dumpTree : Bool) (arg : Path) : Prop where
  first : ∀ output rest,
    read ended none output dumpTree (arg :: rest) = read ended (some arg) output dumpTree rest
  second : ∀ file rest,
    read ended (some file) none dumpTree (arg :: rest) =
      read ended (some file) (some arg) dumpTree rest
  third : ∀ file output rest, read ended (some file) (some output) dumpTree (arg :: rest) = misuse

variable {ended dumpTree : Bool} {file output : Option Path} {arg : Path}
  {args rest : List Path} {job : Job}

theorem read_cons : read ended file output dumpTree (arg :: rest) =
    if arg = [] then misuse
    else if !ended && isOption arg then
      if arg = .ofText "--" then read true file output dumpTree rest
      else if asksHelp arg then help
      else if arg = .ofText "--dump-ast" && !dumpTree then read ended file output true rest
      else misuse
    else
      match file, output with
      | none, _ => read ended (some arg) output dumpTree rest
      | some _, none => read ended file (some arg) dumpTree rest
      | some _, some _ => misuse := rfl

/-- An argument is either an option, whatever files are named, or the name of a file. -/
theorem isOption_or_isName (h : read ended file output dumpTree (arg :: rest) = .work job) :
    (∃ ended' dumpTree', ∀ file output rest, read ended file output dumpTree (arg :: rest) =
      read ended' file output dumpTree' rest) ∨ IsName ended dumpTree arg := by
  by_cases hempty : arg = []
  · rw [read_cons, if_pos hempty] at h
    cases h
  by_cases hoption : (!ended && isOption arg) = true
  · rw [read_cons, if_neg hempty, if_pos hoption] at h
    refine .inl ?_
    by_cases hend : arg = .ofText "--"
    · refine ⟨true, dumpTree, fun _ _ _ => ?_⟩
      rw [read_cons, if_neg hempty, if_pos hoption, if_pos hend]
    rw [if_neg hend] at h
    by_cases hhelp : asksHelp arg = true
    · rw [if_pos hhelp] at h
      cases h
    rw [if_neg hhelp] at h
    by_cases hdump : (decide (arg = .ofText "--dump-ast") && !dumpTree) = true
    · refine ⟨ended, true, fun _ _ _ => ?_⟩
      rw [read_cons, if_neg hempty, if_pos hoption, if_neg hend, if_neg hhelp, if_pos hdump]
    · rw [if_neg hdump] at h
      cases h
  · refine .inr ⟨fun _ _ => ?_, fun _ _ => ?_, fun _ _ _ => ?_⟩ <;>
      rw [read_cons, if_neg hempty, if_neg hoption]

/-- Behind the output file only options are read. -/
theorem read_behind_output {f o : Path}
    (h : read ended (some f) (some o) dumpTree args = .work job) : job.output = some o ∧
      read ended (some f) none dumpTree args = .work { job with output := none } := by
  induction args generalizing ended dumpTree with
  | nil =>
    cases h
    exact ⟨rfl, rfl⟩
  | cons arg rest ih =>
    rcases isOption_or_isName h with ⟨ended', dumpTree', hread⟩ | hname
    · rw [hread] at h ⊢
      exact ih h
    · rw [hname.third] at h
      cases h

/-- The output file is one of the arguments, and without it the others ask for the same job, but
for where its result goes. -/
theorem exists_output {path : Path} (h : read ended file none dumpTree args = .work job)
    (hpath : job.output = some path) : ∃ before after, args = before ++ path :: after ∧
      read ended file none dumpTree (before ++ after) = .work { job with output := none } := by
  induction args generalizing ended dumpTree file with
  | nil =>
    cases file <;> cases h
    cases hpath
  | cons arg rest ih =>
    rcases isOption_or_isName h with ⟨ended', dumpTree', hread⟩ | hname
    · rw [hread] at h
      rcases ih h with ⟨before, after, rfl, hwithout⟩
      exact ⟨arg :: before, after, rfl, (hread ..).trans hwithout⟩
    cases file with
    | none =>
      rw [hname.first] at h
      rcases ih h with ⟨before, after, rfl, hwithout⟩
      exact ⟨arg :: before, after, rfl, (hname.first ..).trans hwithout⟩
    | some f =>
      rw [hname.second] at h
      rcases read_behind_output h with ⟨harg, hwithout⟩
      obtain rfl : arg = path := Option.some.inj (harg.symm.trans hpath)
      exact ⟨[], rest, rfl, hwithout⟩

end Intent

/-- The reader of arguments that is at hand does what is asked of one. -/
theorem Libraries.asDocumented_standard : Libraries.standard.AsDocumented :=
  ⟨Intent.exists_output⟩

end AsyncErasure.Command
