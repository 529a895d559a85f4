import Mathlib.Tactic
import Offside.Disk.Operation

/-!
What is left alone when the content of a file changes: every path leads where it led. A file in the
working directory that was opened to write is found again under its name, and what is written at its
end comes after what it held.
-/

namespace Offside.Disk

variable {d d' : Disk} {i size : Nat} {path name : String} {bytes : ByteArray}

theorem inode_setInode (d : Disk) (i j : Nat) (node : Inode) :
    (d.setInode i node).inode j = if i = j ∧ i < d.inodes.size then node else d.inode j := by
  unfold inode setInode
  rw [Array.getElem?_setIfInBounds]
  by_cases hij : i = j
  · subst hij
    by_cases hi : i < d.inodes.size
    · simp [hi]
    · simp [hi]
  · simp [hij]

theorem inodes_setInode_size (d : Disk) (i : Nat) (node : Inode) :
    (d.setInode i node).inodes.size = d.inodes.size :=
  Array.size_setIfInBounds

theorem content_setInode (hi : i < d.inodes.size) :
    (d.setInode i (.file bytes)).content i = bytes := by
  rw [content, inode_setInode, if_pos ⟨rfl, hi⟩]

/-- Two disks with the same directories. -/
structure SameTree (d d' : Disk) : Prop where
  here : d'.here = d.here
  directories : ∀ i, d'.isDirectory i = d.isDirectory i
  entries : ∀ i, d'.entries i = d.entries i
  parents : ∀ i, d'.parent i = d.parent i

theorem SameTree.walk (h : SameTree d d') (names : List String) :
    ∀ i, d'.walk i names = d.walk i names := by
  induction names with
  | nil => exact fun _ => rfl
  | cons name rest ih =>
    intro i
    simp only [Disk.walk, entry?, h.directories, h.entries, h.parents, ih]

theorem SameTree.resolve (h : SameTree d d') (path : String) :
    d'.resolve path = d.resolve path := by
  simp only [Disk.resolve, start, h.here, h.walk]

theorem setInode_sameTree (h : d.isDirectory i = false) (bytes : ByteArray) :
    SameTree d (d.setInode i (.file bytes)) := by
  have hfile : ∃ old, d.inode i = .file old := by
    unfold isDirectory at h
    split at h
    · cases h
    · exact ⟨_, by assumption⟩
  obtain ⟨old, hold⟩ := hfile
  refine ⟨rfl, fun j => ?_, fun j => ?_, fun j => ?_⟩
  all_goals
    simp only [isDirectory, entries, parent, inode_setInode]
    split_ifs with hj
    · obtain ⟨rfl, -⟩ := hj
      rw [hold]
    · rfl

/-! ### A file and its content -/

/-- The path leads to the file `i`, one of the first `size` objects with these bytes in it, or one
that is not there and has none. -/
structure Holds (d : Disk) (path : String) (size i : Nat) (bytes : ByteArray) : Prop where
  found : d.resolve path = .ok i
  regular : d.isDirectory i = false
  objects : d.inodes.size = size
  content : i < size → d.content i = bytes

theorem Holds.replace (h : d.Holds path size i bytes) (more : ByteArray) :
    (d.setInode i (.file more)).Holds path size i more where
  found := ((setInode_sameTree h.regular more).resolve path).trans h.found
  regular := ((setInode_sameTree h.regular more).directories i).trans h.regular
  objects := (inodes_setInode_size _ _ _).trans h.objects
  content hi := content_setInode (h.objects ▸ hi)

/-- Writing at the end appends. -/
theorem Holds.append (h : d.Holds path size i bytes) (more : ByteArray) :
    (d.writeAt i bytes.size more).Holds path size i (bytes ++ more) := by
  unfold writeAt
  have hnew := h.replace ((d.content i).extract 0 bytes.size ++
    ⟨Array.replicate (bytes.size - (d.content i).size) 0⟩ ++ more ++
    (d.content i).extract (bytes.size + more.size) (d.content i).size)
  refine ⟨hnew.found, hnew.regular, hnew.objects, fun hi => ?_⟩
  have hrest : bytes.extract (bytes.size + more.size) bytes.size = .empty :=
    ByteArray.extract_eq_empty_iff.mpr (by omega)
  have hgap : (⟨Array.replicate (bytes.size - bytes.size) 0⟩ : ByteArray) = .empty := by
    rw [Nat.sub_self]
    rfl
  rw [hnew.content hi, h.content hi, hrest, hgap, ByteArray.extract_zero_size]
  simp only [ByteArray.append_empty]

theorem Holds.read (h : d.Holds path size i bytes) : d.read path = .ok (d.content i) := by
  unfold Disk.read openFile
  rw [h.found]
  simp only [bind, Except.bind, h.regular]
  rfl

theorem content_beyond (h : d.inodes.size ≤ i) : d.content i = .empty := by
  unfold content inode
  rw [Array.getElem?_eq_none h]
  rfl

/-! ### Opening a file -/

/-- A path that is a name in the working directory. -/
structure Plain (name : String) : Prop where
  checked : checkPath name = .ok ()
  relative : Path.isAbsolute name.toList = false
  names : names name = [name]
  noSlash : endsInSlash name = false
  ordinary : name ≠ "." ∧ name ≠ ".."
  short : name.utf8ByteSize ≤ longestName

theorem Plain.start (h : Plain name) (d : Disk) : d.start name = d.here := by
  rw [Disk.start, h.relative]
  rfl

theorem Plain.lastStep (h : Plain name) (d : Disk) :
    d.lastStep name =
      if d.isDirectory d.here then .ok (d.here, .name name) else .error .notADirectory := by
  unfold Disk.lastStep
  rw [h.checked, h.names, h.start]
  change (if (!d.isDirectory d.here) = true then _ else if name = "." then _
    else if name = ".." then _ else _) = _
  rw [if_neg h.ordinary.1, if_neg h.ordinary.2]
  cases d.isDirectory d.here <;> rfl

theorem Plain.resolve (h : Plain name) (hdir : d.isDirectory d.here = true)
    (hentry : d.entry? d.here name = some i) : d.resolve name = .ok i := by
  unfold Disk.resolve
  rw [h.checked, h.names, h.noSlash, h.start]
  change d.walk d.here [name] = _
  rw [walk, hdir, hentry, if_neg h.ordinary.1, if_neg h.ordinary.2, if_neg (not_lt.mpr h.short)]
  rfl

theorem Plain.openToWrite (h : Plain name) (d : Disk) :
    d.openToWrite name =
      if d.isDirectory d.here then
        match d.entry? d.here name with
        | some i => if d.isDirectory i then .error .isADirectory else .ok (i, d)
        | none =>
          if d.isRemoved d.here then .error .noEntry
          else .ok (d.create d.here name (.file .empty))
      else .error .notADirectory := by
  have hcheck : checkName name = .ok () := if_neg (not_lt.mpr h.short)
  unfold Disk.openToWrite
  rw [h.lastStep]
  by_cases hdir : d.isDirectory d.here = true
  · rw [if_pos hdir, if_pos hdir]
    simp only [bind, Except.bind, pure, Except.pure, h.noSlash, hcheck]
    rfl
  · rw [if_neg hdir, if_neg hdir]
    rfl

theorem isDirectory_lt (h : d.isDirectory i = true) : i < d.inodes.size := by
  by_contra hi
  unfold isDirectory inode at h
  rw [Array.getElem?_eq_none (by omega)] at h
  cases h

theorem inode_of_isDirectory (h : d.isDirectory i = true) :
    ∃ parent removed, d.inode i = .directory parent (d.entries i) removed := by
  unfold isDirectory at h
  split at h
  · next hi => exact ⟨_, _, by rw [hi, entries, hi]⟩
  · cases h

/-- A new file is found where it was made. -/
theorem create_file {dir : Nat} (hdir : d.isDirectory dir = true)
    (hnone : d.entry? dir name = none) (h : d.create dir name (.file bytes) = (i, d')) :
    d'.here = d.here ∧ d'.isDirectory dir = true ∧ d'.entry? dir name = some i ∧
      d'.isDirectory i = false := by
  have hlt := isDirectory_lt hdir
  obtain ⟨parent, removed, hinode⟩ := inode_of_isDirectory hdir
  let pushed : Disk := { d with inodes := d.inodes.push (.file bytes) }
  have hold : pushed.inode dir = .directory parent (d.entries dir) removed := by
    rw [← hinode, inode, inode, Array.getElem?_push_lt hlt, Array.getElem?_eq_getElem hlt]
  have hnew : pushed.inode d.inodes.size = .file bytes := by
    rw [inode, Array.getElem?_push_size]
    rfl
  have hfree : (d.entries dir).find? (·.1 == name) = none := by
    rwa [ entry?, Option.map_eq_none_iff] at hnone
  have hany : (d.entries dir).any (·.1 == name) = false := by
    rw [List.find?_eq_none] at hfree
    rw [List.any_eq_false]
    exact hfree
  have hlink : pushed.link dir name d.inodes.size = pushed.setInode dir
      (.directory parent (d.entries dir ++ [(name, d.inodes.size)]) removed) := by
    unfold link
    rw [hold]
    simp only [hany]
    rfl
  have hsize : dir < pushed.inodes.size := by
    rw [Array.size_push]
    omega
  obtain ⟨rfl, rfl⟩ := Prod.mk.inj h
  change (pushed.link dir name _).here = _ ∧ (pushed.link dir name _).isDirectory dir = _ ∧
    Disk.entry? (pushed.link dir name _) dir name = _ ∧ (pushed.link dir name _).isDirectory _ = _
  rw [hlink]
  refine ⟨rfl, ?_, ?_, ?_⟩
  · rw [isDirectory, inode_setInode, if_pos ⟨rfl, hsize⟩]
  · rw [ entry?, entries, inode_setInode, if_pos ⟨rfl, hsize⟩, List.find?_append, hfree]
    simp
  · rw [isDirectory, inode_setInode, if_neg (by omega), hnew]

/-- A file that is opened to write is then found under its name. -/
theorem Plain.opened (h : Plain name) (hopen : d.openToWrite name = .ok (i, d')) :
    d'.resolve name = .ok i ∧ d'.isDirectory i = false := by
  rw [h.openToWrite] at hopen
  by_cases hdir : d.isDirectory d.here = true
  · rw [if_pos hdir] at hopen
    cases hentry : d.entry? d.here name with
    | some j =>
      simp only [hentry] at hopen
      by_cases hj : d.isDirectory j = true
      · rw [if_pos hj] at hopen
        cases hopen
      · rw [if_neg hj] at hopen
        cases hopen
        exact ⟨h.resolve hdir hentry, by simpa using hj⟩
    | none =>
      simp only [hentry] at hopen
      by_cases hr : d.isRemoved d.here = true
      · rw [if_pos hr] at hopen
        cases hopen
      · rw [if_neg hr] at hopen
        obtain ⟨hhere, hdir', hfound, hfile⟩ := create_file hdir hentry (Except.ok.inj hopen)
        refine ⟨h.resolve ?_ ?_, hfile⟩
        · rwa [hhere]
        · rwa [hhere]
  · rw [if_neg hdir] at hopen
    cases hopen

/-- A file that is found under a name is opened under it. -/
theorem Plain.openToWrite_found (h : Plain name) (hfound : d.resolve name = .ok i)
    (hfile : d.isDirectory i = false) : d.openToWrite name = .ok (i, d) := by
  have hwalk : d.walk d.here [name] = .ok i := by
    unfold Disk.resolve at hfound
    rw [h.checked, h.names, h.noSlash, h.start] at hfound
    exact hfound
  have hlong : ¬ longestName < name.utf8ByteSize := not_lt.mpr h.short
  rw [h.openToWrite]
  by_cases hdir : d.isDirectory d.here = true
  · rw [walk, hdir, if_neg h.ordinary.1, if_neg h.ordinary.2, if_neg hlong] at hwalk
    rw [if_pos hdir]
    cases hentry : d.entry? d.here name with
    | none =>
      rw [hentry] at hwalk
      cases hwalk
    | some j =>
      rw [hentry] at hwalk
      cases hwalk
      dsimp only
      rw [hfile]
      rfl
  · rw [walk, Bool.eq_false_iff.mpr hdir] at hwalk
    cases hwalk

/-- A file that is opened anew is empty. -/
theorem Plain.holds_opened (h : Plain name) (hopen : d.openToWrite name = .ok (i, d')) :
    (d'.setInode i (.file .empty)).Holds name d'.inodes.size i .empty := by
  obtain ⟨hfound, hfile⟩ := h.opened hopen
  have hany : d'.Holds name d'.inodes.size i (d'.content i) := ⟨hfound, hfile, rfl, fun _ => rfl⟩
  exact hany.replace .empty

end Offside.Disk
