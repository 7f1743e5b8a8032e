/-
Writing a file.

A path is followed through directories, and no file is written over one.  So a
file that is written changes no directory, and every path leads to where it led
before.  What was written is therefore read again under the same path, and a
path can be written afterwards exactly if it could be before.
-/
import GrammarRecords.CommandLine.FileSystem
import GrammarRecords.Proofs.Table

namespace GrammarRecords
namespace CommandLine
namespace FileSystem

open Packed (Bytes)

/-! ## Following a path -/

def neighbor (place : Place) (component : String) : Place :=
  if component = "" ∨ component = "." then place
  else if component = ".." then parent place
  else child place component

theorem enter_eq_ok_iff {fs : FileSystem} {p q : Place} {component : String} :
    fs.enter p component = .ok q ↔ fs.entry? p = some .directory ∧ neighbor p component = q := by
  unfold enter neighbor
  cases fs.entry? p with
  | none => simp
  | some entry =>
      cases entry with
      | file bytes => simp
      | directory =>
          simp only [true_and]
          split_ifs <;> simp

/-- File systems with the same directories follow a path to the same place. -/
theorem follow_eq_ok_iff {fs fs' : FileSystem}
    (hsame : ∀ p, fs.entry? p = some .directory ↔ fs'.entry? p = some .directory)
    {p q : Place} {cs : List String} : fs.follow p cs = .ok q ↔ fs'.follow p cs = .ok q := by
  have hcons : ∀ (fs : FileSystem) (p : Place) (c : String) (cs : List String),
      fs.follow p (c :: cs) = .ok q ↔
        fs.entry? p = some .directory ∧ fs.follow (neighbor p c) cs = .ok q := by
    intro fs p c cs
    rw [follow]
    cases hc : fs.enter p c with
    | error fault =>
        refine iff_of_false (fun h => nomatch h) fun h => ?_
        have hok : fs.enter p c = .ok (neighbor p c) := enter_eq_ok_iff.mpr ⟨h.1, rfl⟩
        rw [hc] at hok
        exact nomatch hok
    | ok next =>
        obtain ⟨hdirectory, rfl⟩ := enter_eq_ok_iff.mp hc
        exact (and_iff_right hdirectory).symm
  induction cs generalizing p with
  | nil => exact Iff.rfl
  | cons c cs ih =>
      rw [hcons, hcons, hsame p]
      exact and_congr_right fun _ => ih

/-! ## Writing -/

/-- The path leads to the place, and a file may be written there. -/
structure Leads (fs : FileSystem) (path : String) (place : Place) : Prop where
  unslashed : (trimSlashes (fs.components path).2).2 = false
  followed : fs.follow (fs.components path).1 (fs.components path).2 = .ok place
  free : fs.entry? place ≠ some .directory

def withFile (fs : FileSystem) (place : Place) (bytes : Bytes) : FileSystem :=
  { fs with entries := fs.entries.insert place (.file bytes) }

theorem trimSlashes_of_unslashed {cs : List String} (h : (trimSlashes cs).2 = false) :
    (trimSlashes cs).1 = cs := by
  have hlength : ¬ (cs.reverse.dropWhile (· == "")).reverse.length < cs.length :=
    of_decide_eq_false h
  have hsuffix : cs.reverse.dropWhile (· == "") <:+ cs.reverse := List.dropWhile_suffix _
  rw [List.length_reverse, ← @List.length_reverse _ cs] at hlength
  have hall := hsuffix.eq_of_length_le (Nat.le_of_not_lt hlength)
  show (cs.reverse.dropWhile (· == "")).reverse = cs
  rw [hall, List.reverse_reverse]

/-- What a path leads to is replaced by the file, unless it is a directory. -/
def put (fs : FileSystem) (bytes : Bytes) (place : Place) : Except FileFault FileSystem :=
  match fs.entry? place with
  | some .directory => .error .isDirectory
  | _ => .ok (fs.withFile place bytes)

theorem put_eq_ok_iff {fs fs' : FileSystem} {bytes : Bytes} {place : Place} :
    fs.put bytes place = .ok fs' ↔
      fs.entry? place ≠ some .directory ∧ fs' = fs.withFile place bytes := by
  unfold put
  split
  · rename_i hdirectory
    exact iff_of_false (fun h => nomatch h) fun h => h.1 hdirectory
  · rename_i hfree
    rw [Except.ok.injEq, eq_comm]
    exact (and_iff_right hfree).symm

theorem write_of_unslashed {fs : FileSystem} {path : String}
    (h : (trimSlashes (fs.components path).2).2 = false) (bytes : Bytes) :
    fs.write path bytes =
      fs.follow (fs.components path).1 (fs.components path).2 >>= fs.put bytes := by
  unfold write
  simp only
  rw [trimSlashes_of_unslashed h, h]
  rfl

theorem write_of_slashed {fs : FileSystem} {path : String}
    (h : (trimSlashes (fs.components path).2).2 = true) (fs' : FileSystem) (bytes : Bytes) :
    fs.write path bytes ≠ .ok fs' := by
  unfold write
  simp only
  rw [h]
  cases fs.follow (fs.components path).1 (trimSlashes (fs.components path).2).1 with
  | error fault => exact fun he => nomatch he
  | ok place => exact fun he => nomatch he

theorem write_eq_ok_iff {fs fs' : FileSystem} {path : String} {bytes : Bytes} :
    fs.write path bytes = .ok fs' ↔
      ∃ place, fs.Leads path place ∧ fs' = fs.withFile place bytes := by
  cases hslashed : (trimSlashes (fs.components path).2).2 with
  | true =>
      refine iff_of_false (write_of_slashed hslashed fs' bytes) ?_
      rintro ⟨place, hleads, -⟩
      exact Bool.noConfusion (hslashed.symm.trans hleads.unslashed)
  | false =>
      rw [write_of_unslashed hslashed]
      constructor
      · intro h
        cases hplace : fs.follow (fs.components path).1 (fs.components path).2 with
        | error fault => rw [hplace] at h; exact nomatch h
        | ok place =>
            rw [hplace] at h
            obtain ⟨hfree, he⟩ := put_eq_ok_iff.mp h
            exact ⟨place, ⟨hslashed, hplace, hfree⟩, he⟩
      · rintro ⟨place, hleads, rfl⟩
        rw [hleads.followed]
        exact put_eq_ok_iff.mpr ⟨hleads.free, rfl⟩

/-! ## Afterwards -/

/-- The working directory and those above it are no files. -/
theorem Leads.not_isPrefixOf {fs : FileSystem} {path : String} {place : Place}
    (h : fs.Leads path place) : ¬ place.isPrefixOf fs.workingDirectory = true :=
  fun hprefix => h.free (if_pos hprefix)

theorem entry_withFile_of_ne {fs : FileSystem} {place other : Place} (hother : other ≠ place)
    (bytes : Bytes) : FileSystem.entry? (fs.withFile place bytes) other = fs.entry? other := by
  show (if other.isPrefixOf fs.workingDirectory then some Entry.directory
    else (fs.entries.insert place (.file bytes)).get? other) = _
  rw [Table.get?_insert_of_ne fs.entries _ hother]
  rfl

section

variable {fs : FileSystem} {path : String} {place : Place} (h : fs.Leads path place)
  (bytes : Bytes)

include h

theorem entry_withFile_self :
    FileSystem.entry? (fs.withFile place bytes) place = some (.file bytes) := by
  show (if place.isPrefixOf fs.workingDirectory then some Entry.directory
    else (fs.entries.insert place (.file bytes)).get? place) = _
  rw [if_neg h.not_isPrefixOf]
  exact Table.get?_insert_self fs.entries place _

theorem entry_directory_withFile_iff (other : Place) :
    fs.entry? other = some .directory ↔
      FileSystem.entry? (fs.withFile place bytes) other = some .directory := by
  by_cases hother : other = place
  · rw [hother, entry_withFile_self h]
    exact iff_of_false h.free fun he => nomatch he
  · rw [entry_withFile_of_ne hother]

theorem leads_withFile_iff {other : String} {place' : Place} :
    (fs.withFile place bytes).Leads other place' ↔ fs.Leads other place' := by
  have hsame := entry_directory_withFile_iff h bytes
  constructor
  · rintro ⟨hslashed, hplace, hfree⟩
    exact ⟨hslashed, (follow_eq_ok_iff hsame).mpr hplace, fun he => hfree ((hsame _).mp he)⟩
  · rintro ⟨hslashed, hplace, hfree⟩
    exact ⟨hslashed, (follow_eq_ok_iff hsame).mp hplace, fun he => hfree ((hsame _).mpr he)⟩

end

theorem read_of_leads {fs : FileSystem} {path : String} {place : Place} {bytes : Bytes}
    (h : fs.Leads path place) (hentry : fs.entry? place = some (.file bytes)) :
    fs.read path = .ok bytes := by
  unfold read
  simp only
  rw [h.followed]
  simp only [bind, Except.bind, hentry]
  rfl

section

variable {fs fs' : FileSystem} {path : String} {bytes : Bytes} (h : fs.write path bytes = .ok fs')

include h

theorem read_of_write : fs'.read path = .ok bytes := by
  obtain ⟨place, hleads, rfl⟩ := write_eq_ok_iff.mp h
  exact read_of_leads ((leads_withFile_iff hleads bytes).mpr hleads)
    (entry_withFile_self hleads bytes)

theorem exists_write_iff_of_write {other : String} {contents : Bytes} :
    (∃ after, fs'.write other contents = .ok after) ↔
      ∃ after, fs.write other contents = .ok after := by
  have hleads : ∀ fs : FileSystem, (∃ after, fs.write other contents = .ok after) ↔
      ∃ place, fs.Leads other place := by
    intro fs
    simp only [write_eq_ok_iff]
    constructor
    · rintro ⟨_, place, hplace, -⟩
      exact ⟨place, hplace⟩
    · rintro ⟨place, hplace⟩
      exact ⟨_, place, hplace, rfl⟩
  obtain ⟨place, hplace, rfl⟩ := write_eq_ok_iff.mp h
  simp only [hleads, leads_withFile_iff hplace]

end

end FileSystem
end CommandLine
end GrammarRecords
