import AsyncErasure.Command.FileTree

namespace AsyncErasure.Command

namespace FileTree

variable {t : FileTree} {path : List Path} {entry : Entry}

@[simp] theorem find?_put_self : (t.put path entry).find? path = some entry := by
  simp [put, find?]

theorem find?_put_of_ne {other : List Path} (h : other ≠ path) :
    (t.put path entry).find? other = t.find? other := by
  unfold put find?
  rw [List.lookup_cons, beq_false_of_ne h]
  show List.lookup other (t.entries.filter _) = _
  generalize t.entries = entries
  induction entries with
  | nil => rfl
  | cons e entries ih =>
    rcases e with ⟨key, value⟩
    rw [List.filter_cons]
    by_cases hkey : key = path
    · subst hkey
      rw [if_neg (by simp), ih, List.lookup_cons, beq_false_of_ne h]
    · rw [if_pos (by simpa using hkey), List.lookup_cons, List.lookup_cons, ih]

def LeadsTo (spot : Except FileFault Spot) (path : List Path) : Prop :=
  spot = .ok (.free path) ∨ ∃ content, spot = .ok (.file path content)

/-- What a path leads to is what the tree has there. -/
theorem find?_of_follow {dir parts : List Path} :
    (t.follow dir parts = .ok (.free path) → t.find? path = none) ∧
      ∀ content, t.follow dir parts = .ok (.file path content) →
        t.find? path = some (.file content) := by
  induction parts generalizing dir with
  | nil => exact ⟨nofun, nofun⟩
  | cons part rest ih =>
    unfold follow
    split
    · exact ih
    split
    · exact ih
    split
    · exact ih
    · rename_i content hfind
      split
      · refine ⟨nofun, fun content' h => ?_⟩
        cases h
        exact hfind
      · exact ⟨nofun, nofun⟩
    · rename_i hfind
      split
      · refine ⟨fun h => ?_, nofun⟩
        cases h
        exact hfind
      · exact ⟨nofun, nofun⟩

theorem LeadsTo.not_directory {dir parts : List Path} (h : LeadsTo (t.follow dir parts) path) :
    t.find? path ≠ some .directory := by
  rcases h with h | ⟨content, h⟩
  · rw [find?_of_follow.1 h]
    nofun
  · rw [find?_of_follow.2 content h]
    nofun

/-- The directories on the way stay where they are. -/
theorem follow_put {content : ByteArray} {dir parts : List Path}
    (hpath : t.find? path ≠ some .directory) (h : LeadsTo (t.follow dir parts) path) :
    (t.put path (.file content)).follow dir parts = .ok (.file path content) := by
  induction parts generalizing dir with
  | nil => rcases h with h | ⟨_, h⟩ <;> cases h
  | cons part rest ih =>
    unfold follow at h ⊢
    by_cases hsame : part.isHere = true
    · rw [if_pos hsame] at h ⊢
      exact ih h
    rw [if_neg hsame] at h ⊢
    by_cases hup : part.isUp = true
    · rw [if_pos hup] at h ⊢
      exact ih h
    rw [if_neg hup] at h ⊢
    by_cases hne : dir ++ [part] = path
    · -- the way ends here, so no part may be left
      have hrest : rest.isEmpty := by
        rw [hne] at h
        split at h
        · rename_i hfind
          exact absurd hfind hpath
        all_goals
          split at h
          · assumption
          · rcases h with h | ⟨_, h⟩ <;> cases h
      rw [hne, find?_put_self]
      exact if_pos hrest
    · rw [find?_put_of_ne hne]
      split at h
      · exact ih h
      all_goals
        split at h
        · rcases h with h | ⟨_, h⟩ <;> cases h
          exact absurd rfl hne
        · rcases h with h | ⟨_, h⟩ <;> cases h

/-- The entry that a path names, if one can be read or made there. -/
def Names (t : FileTree) (file : Path) (path : List Path) : Prop := LeadsTo (t.locate file) path

theorem locate_put {file : Path} {content : ByteArray} (h : t.Names file path) :
    (t.put path (.file content)).locate file = .ok (.file path content) :=
  follow_put h.not_directory h

/-- A write that succeeds changes the entry that the path names and no other one. -/
theorem write_eq_ok {file : Path} {text : String} {t' : FileTree} (h : t.write file text = .ok t') :
    ∃ path, t.Names file path ∧ t' = t.put path (.file text.toUTF8) := by
  unfold write at h
  simp only [bind, Except.bind, throw, throwThe, MonadExceptOf.throw, pure, Except.pure] at h
  split at h
  · split at h <;> cases h
  cases hspot : t.locate file with
  | error fault =>
    rw [hspot] at h
    cases h
  | ok spot =>
    rw [hspot] at h
    cases spot with
    | file path content => exact ⟨path, .inr ⟨content, hspot⟩, (Except.ok.inj h).symm⟩
    | free path => exact ⟨path, .inl hspot, (Except.ok.inj h).symm⟩
    | directory path => cases h

theorem write_of_names {file : Path} (text : String) (hslash : aboveSlash? file = none)
    (h : t.Names file path) : t.write file text = .ok (t.put path (.file text.toUTF8)) := by
  unfold write
  rw [hslash]
  rcases h with h | ⟨content, h⟩ <;> rw [h] <;> rfl

/-- What was written is read back. -/
theorem read_put {file : Path} {text : String} (h : t.Names file path) :
    (t.put path (.file text.toUTF8)).read file = .ok text := by
  have htext : String.fromUTF8? text.toUTF8 = some text := dif_pos text.isValidUTF8
  unfold read
  rw [locate_put h]
  simp only [bind, Except.bind, htext]
  rfl

end FileTree

end AsyncErasure.Command
