import Mathlib.Data.List.Infix
import Mathlib.Logic.Function.Basic
import Mathlib.Tactic.Common

/-! Files in a tree of directories on a disk that can lose its power: what is visible now, and what a crash may leave. -/
namespace ChessCrawl.Lib
set_option autoImplicit false

/-- Directories are paths below one that is always there. A name of type `κ` is a file in the directory that a function
`place` gives for it. -/
structure Disk (κ α γ : Type) where
  dirs : List α → Bool
  /-- The entry of the directory is durable. -/
  dirsKept : List α → Bool
  /-- The inode behind a name. -/
  files : κ → Option Nat
  /-- What a crash may leave of a name: all that it has been since its directory was synced. -/
  filesKept : κ → List (Option Nat)
  content : Nat → γ
  contentKept : Nat → Bool
  /-- The next inode. -/
  inodes : Nat

namespace Disk
variable {κ α γ : Type} (place : κ → List α) (x : Disk κ α γ)

def view (k : κ) : Option γ := (x.files k).map x.content

def mkdir [DecidableEq α] (d : List α) : Disk κ α γ := { x with dirs := Function.update x.dirs d true }

/-- A new inode. -/
def create (c : γ) : Disk κ α γ :=
  { x with
    content := Function.update x.content x.inodes c
    contentKept := Function.update x.contentKept x.inodes false
    inodes := x.inodes + 1 }

def write (n : Nat) (c : γ) : Disk κ α γ :=
  { x with
    content := Function.update x.content n c
    contentKept := Function.update x.contentKept n false }

def fsync (n : Nat) : Disk κ α γ := { x with contentKept := Function.update x.contentKept n true }

/-- The name gets or loses its file. -/
def setName [DecidableEq κ] (k : κ) (v : Option Nat) : Disk κ α γ :=
  { x with
    files := Function.update x.files k v
    filesKept := Function.update x.filesKept k (x.filesKept k ++ [v]) }

/-- `fsync` of a directory. -/
def syncDir [DecidableEq α] (d : List α) : Disk κ α γ :=
  { x with
    dirsKept := fun c => if c.dropLast = d then x.dirs c else x.dirsKept c
    filesKept := fun k => if place k = d then [x.files k] else x.filesKept k }

/-- The directories after a crash that spares the entries of `keep`. -/
def left (keep : List α → Bool) (d : List α) : Bool := d.inits.all fun c => x.dirs c && (x.dirsKept c || keep c)

/-- A crash decides about every entry and all content that was not durable. -/
def crash (keep : List α → Bool) (pick : κ → Nat) (garbage : Nat → γ) : Disk κ α γ :=
  let files := fun k => if x.left keep (place k) then ((x.filesKept k)[pick k]?).getD (x.files k) else none
  { dirs := x.left keep
    dirsKept := x.left keep
    files := files
    filesKept := fun k => [files k]
    content := fun n => if x.contentKept n then x.content n else garbage n
    contentKept := fun _ => true
    inodes := x.inodes }

/-- A name has a directory, and only files whose content is durable have had names. -/
structure Sound : Prop where
  top : x.dirsKept [] = true
  exists_of_kept : ∀ d, x.dirsKept d = true → x.dirs d = true
  parent : ∀ d, x.dirs d = true → x.dirs d.dropLast = true
  housed : ∀ k n, x.files k = some n → x.dirs (place k) = true
  current : ∀ k, x.files k ∈ x.filesKept k
  whole : ∀ k n, some n ∈ x.filesKept k → n < x.inodes ∧ x.contentKept n = true

def Present (k : κ) (c : γ) : Prop := ∃ n, x.files k = some n ∧ x.content n = c

/-- The name has this content after a crash that leaves its directory. -/
def Fixed (k : κ) (c : γ) : Prop := ∀ v ∈ x.filesKept k, ∃ n, v = some n ∧ x.content n = c

/-- What the sync of one directory settles about a name below it. -/
def Settled (k : κ) (c : γ) (d : List α) : Prop :=
  (d = place k → x.Fixed k c) ∧ ∀ e, e <+: place k → e.dropLast = d → x.dirsKept e = true

/-- The name has this content after every crash. -/
def Durable (k : κ) (c : γ) : Prop := x.Fixed k c ∧ ∀ e, e <+: place k → x.dirsKept e = true

/-- What an operation on other names leaves as it is. -/
structure Calm (x y : Disk κ α γ) (k : κ) : Prop where
  files : y.files k = x.files k
  kept : ∀ v ∈ y.filesKept k, v ∈ x.filesKept k
  dirs : ∀ d, x.dirsKept d = true → y.dirsKept d = true
  content : ∀ n, some n ∈ x.filesKept k → y.content n = x.content n

variable {place x} {k : κ} {c : γ} {d : List α} {n : Nat}

theorem view_eq_some : x.view k = some c ↔ x.Present k c := by
  simp [view, Present]

/-! ## Soundness -/

namespace Sound

theorem ancestor (h : x.Sound place) (hd : x.dirs d = true) {e : List α} (he : e <+: d) : x.dirs e = true := by
  induction d using List.reverseRecOn with
  | nil => rwa [List.prefix_nil.mp he]
  | append_singleton d a ih =>
    obtain rfl | hlt := List.prefix_concat_iff.mp he
    · exact hd
    · refine ih ?_ hlt
      have := h.parent _ hd
      rwa [List.dropLast_concat] at this

theorem mkdir [DecidableEq α] (h : x.Sound place) (hd : x.dirs d.dropLast = true) : (x.mkdir d).Sound place := by
  have hgrows : ∀ e, x.dirs e = true → (x.mkdir d).dirs e = true := by
    intro e he
    simp only [Disk.mkdir, Function.update_apply]
    split
    · rfl
    · exact he
  refine ⟨h.top, fun e he => hgrows e (h.exists_of_kept e he), fun e he => ?_, fun k n hk => hgrows _ (h.housed k n hk),
    h.current, h.whole⟩
  by_cases hed : e = d
  · exact hgrows _ (hed ▸ hd)
  · simp only [Disk.mkdir, Function.update_apply, if_neg hed] at he
    exact hgrows _ (h.parent e he)

theorem create (h : x.Sound place) (c : γ) : (x.create c).Sound place := by
  refine ⟨h.top, h.exists_of_kept, h.parent, h.housed, h.current, fun k n hn => ?_⟩
  obtain ⟨hlt, hkept⟩ := h.whole k n hn
  have hne : n ≠ x.inodes := by omega
  simp only [Disk.create, Function.update_apply, if_neg hne]
  exact ⟨by omega, hkept⟩

theorem write (h : x.Sound place) (hn : ∀ k, some n ∉ x.filesKept k) (c : γ) : (x.write n c).Sound place := by
  refine ⟨h.top, h.exists_of_kept, h.parent, h.housed, h.current, fun k m hm => ?_⟩
  have hne : m ≠ n := fun heq => hn k (heq ▸ hm)
  simp only [Disk.write, Function.update_apply, if_neg hne]
  exact h.whole k m hm

theorem fsync (h : x.Sound place) (n : Nat) : (x.fsync n).Sound place := by
  refine ⟨h.top, h.exists_of_kept, h.parent, h.housed, h.current, fun k m hm => ?_⟩
  obtain ⟨hlt, hkept⟩ := h.whole k m hm
  refine ⟨hlt, ?_⟩
  simp only [Disk.fsync, Function.update_apply]
  split
  · rfl
  · exact hkept

theorem setName [DecidableEq κ] (h : x.Sound place) {v : Option Nat}
    (hv : ∀ n, v = some n → n < x.inodes ∧ x.contentKept n = true ∧ x.dirs (place k) = true) :
    (x.setName k v).Sound place := by
  refine ⟨h.top, h.exists_of_kept, h.parent, fun j n hj => ?_, fun j => ?_, fun j n hn => ?_⟩
  · by_cases hjk : j = k
    · subst hjk
      simp only [Disk.setName, Function.update_self] at hj
      exact (hv n hj).2.2
    · simp only [Disk.setName, Function.update_apply, if_neg hjk] at hj
      exact h.housed j n hj
  · by_cases hjk : j = k
    · subst hjk
      simp [Disk.setName]
    · simp only [Disk.setName, Function.update_apply, if_neg hjk]
      exact h.current j
  · by_cases hjk : j = k
    · subst hjk
      simp only [Disk.setName, Function.update_self, List.mem_append, List.mem_singleton] at hn
      obtain hold | hnew := hn
      · exact h.whole j n hold
      · exact ⟨(hv n hnew.symm).1, (hv n hnew.symm).2.1⟩
    · simp only [Disk.setName, Function.update_apply, if_neg hjk] at hn
      exact h.whole j n hn

theorem syncDir [DecidableEq α] (h : x.Sound place) (d : List α) : (x.syncDir place d).Sound place := by
  refine ⟨?_, fun e he => ?_, h.parent, h.housed, fun k => ?_, fun k n hn => ?_⟩
  · simp only [Disk.syncDir]
    split
    · exact h.exists_of_kept _ h.top
    · exact h.top
  · simp only [Disk.syncDir] at he
    split at he
    · exact he
    · exact h.exists_of_kept e he
  · simp only [Disk.syncDir]
    split
    · exact List.mem_singleton_self _
    · exact h.current k
  · simp only [Disk.syncDir] at hn
    split at hn
    · rw [List.mem_singleton] at hn
      exact h.whole k n (hn ▸ h.current k)
    · exact h.whole k n hn

/-- What a name is after a crash, it may have been before. -/
theorem files_crash (h : x.Sound place) {keep : List α → Bool} {pick : κ → Nat} {garbage : Nat → γ}
    (hn : (x.crash place keep pick garbage).files k = some n) : some n ∈ x.filesKept k := by
  simp only [Disk.crash] at hn
  split at hn
  · rw [← hn]
    cases hv : (x.filesKept k)[pick k]? with
    | none => exact h.current k
    | some v => exact List.mem_of_getElem? hv
  · cases hn

theorem crash (h : x.Sound place) (keep : List α → Bool) (pick : κ → Nat) (garbage : Nat → γ) :
    (x.crash place keep pick garbage).Sound place := by
  refine ⟨?_, fun _ he => he, fun d hd => ?_, fun k n hn => ?_, fun _ => List.mem_singleton_self _, fun k n hn => ?_⟩
  · simp [Disk.crash, left, h.top, h.exists_of_kept _ h.top]
  · simp only [Disk.crash, left, List.all_eq_true, List.mem_inits] at hd ⊢
    exact fun e he => hd e (he.trans (List.dropLast_prefix d))
  · simp only [Disk.crash] at hn
    split at hn
    · assumption
    · cases hn
  · have hfile : (x.crash place keep pick garbage).files k = some n := (List.mem_singleton.mp hn).symm
    exact ⟨(h.whole k n (h.files_crash hfile)).1, rfl⟩

end Sound

/-! ## Operations on other names -/

namespace Calm

theorem refl (x : Disk κ α γ) (k : κ) : Calm x x k := ⟨rfl, fun _ hv => hv, fun _ hd => hd, fun _ _ => rfl⟩

theorem mkdir [DecidableEq α] (x : Disk κ α γ) (d : List α) (k : κ) : Calm x (x.mkdir d) k :=
  ⟨rfl, fun _ hv => hv, fun _ hd => hd, fun _ _ => rfl⟩

theorem create (h : x.Sound place) (c : γ) (k : κ) : Calm x (x.create c) k := by
  refine ⟨rfl, fun _ hv => hv, fun _ hd => hd, fun n hn => ?_⟩
  have hne : n ≠ x.inodes := Nat.ne_of_lt (h.whole k n hn).1
  simp only [Disk.create, Function.update_apply, if_neg hne]

theorem write (hn : ∀ k, some n ∉ x.filesKept k) (c : γ) (k : κ) : Calm x (x.write n c) k := by
  refine ⟨rfl, fun _ hv => hv, fun _ hd => hd, fun m hm => ?_⟩
  have hne : m ≠ n := fun heq => hn k (heq ▸ hm)
  simp only [Disk.write, Function.update_apply, if_neg hne]

theorem fsync (x : Disk κ α γ) (n : Nat) (k : κ) : Calm x (x.fsync n) k :=
  ⟨rfl, fun _ hv => hv, fun _ hd => hd, fun _ _ => rfl⟩

theorem setName [DecidableEq κ] (x : Disk κ α γ) {j : κ} (hne : k ≠ j) (v : Option Nat) : Calm x (x.setName j v) k := by
  refine ⟨?_, fun w hw => ?_, fun _ hd => hd, fun _ _ => rfl⟩
  · simp only [Disk.setName, Function.update_apply, if_neg hne]
  · simpa only [Disk.setName, Function.update_apply, if_neg hne] using hw

theorem syncDir [DecidableEq α] (h : x.Sound place) (d : List α) (k : κ) : Calm x (x.syncDir place d) k := by
  refine ⟨rfl, fun v hv => ?_, fun e he => ?_, fun _ _ => rfl⟩
  · simp only [Disk.syncDir] at hv
    split at hv
    · exact List.mem_singleton.mp hv ▸ h.current k
    · exact hv
  · simp only [Disk.syncDir]
    split
    · exact h.exists_of_kept e he
    · exact he

variable {y : Disk κ α γ}

theorem present (hcalm : Calm x y k) (h : x.Sound place) (hp : x.Present k c) : y.Present k c := by
  obtain ⟨n, hn, hc⟩ := hp
  refine ⟨n, hcalm.files.trans hn, ?_⟩
  rw [hcalm.content n (hn ▸ h.current k), hc]

theorem fixed (hcalm : Calm x y k) (hf : x.Fixed k c) : y.Fixed k c := by
  intro v hv
  have hold := hcalm.kept v hv
  obtain ⟨n, rfl, hc⟩ := hf v hold
  exact ⟨n, rfl, (hcalm.content n hold).trans hc⟩

theorem settled (hcalm : Calm x y k) (hs : x.Settled place k c d) : y.Settled place k c d :=
  ⟨fun hd => hcalm.fixed (hs.1 hd), fun e he hd => hcalm.dirs e (hs.2 e he hd)⟩

theorem durable (hcalm : Calm x y k) (hd : x.Durable place k c) : y.Durable place k c :=
  ⟨hcalm.fixed hd.1, fun e he => hcalm.dirs e (hd.2 e he)⟩

theorem view (hcalm : Calm x y k) (h : x.Sound place) : y.view k = x.view k := by
  simp only [Disk.view, hcalm.files]
  cases hn : x.files k with
  | none => rfl
  | some n => simp only [Option.map_some, hcalm.content n (hn ▸ h.current k)]

end Calm

theorem view_setName [DecidableEq κ] (x : Disk κ α γ) (k : κ) (v : Option Nat) :
    (x.setName k v).view = Function.update x.view k (v.map x.content) := by
  funext j
  by_cases hj : j = k
  · subst hj
    simp [Disk.view, setName]
  · simp [Disk.view, setName, hj]

/-! ## Durability -/

theorem settled_syncDir [DecidableEq α] (h : x.Sound place) (hp : x.Present k c) (d : List α) :
    (x.syncDir place d).Settled place k c d := by
  obtain ⟨n, hn, hc⟩ := hp
  refine ⟨fun hd v hv => ?_, fun e he hd => ?_⟩
  · simp only [syncDir, if_pos hd.symm, List.mem_singleton] at hv
    exact ⟨n, hv.trans hn, hc⟩
  · simp only [syncDir, if_pos hd]
    exact h.ancestor (h.housed k n hn) he

theorem durable_of_settled (h : ∀ d, d <+: place k → x.Settled place k c d) : x.Durable place k c :=
  ⟨(h _ (List.prefix_refl _)).1 rfl, fun e he => (h _ ((List.dropLast_prefix e).trans he)).2 e he rfl⟩

theorem Durable.present (h : x.Sound place) (hd : x.Durable place k c) : x.Present k c := by
  obtain ⟨n, hn, hc⟩ := hd.1 _ (h.current k)
  exact ⟨n, hn, hc⟩

theorem Durable.crash (h : x.Sound place) (hd : x.Durable place k c) (keep : List α → Bool) (pick : κ → Nat)
    (garbage : Nat → γ) : (x.crash place keep pick garbage).Durable place k c := by
  have hleft : ∀ e, e <+: place k → x.left keep e = true := by
    intro e he
    simp only [left, List.all_eq_true, List.mem_inits]
    intro a ha
    have hkept := hd.2 a (ha.trans he)
    simp [hkept, h.exists_of_kept a hkept]
  refine ⟨fun v hv => ?_, hleft⟩
  obtain rfl := List.mem_singleton.mp hv
  have hmem : (x.crash place keep pick garbage).files k ∈ x.filesKept k := by
    simp only [Disk.crash, if_pos (hleft _ (List.prefix_refl _))]
    cases hpick : (x.filesKept k)[pick k]? with
    | none => exact h.current k
    | some v => exact List.mem_of_getElem? hpick
  obtain ⟨n, hn, hc⟩ := hd.1 _ hmem
  refine ⟨n, hn, ?_⟩
  simp only [Disk.crash, if_pos (h.whole k n (hn ▸ hmem)).2, hc]

end Disk
end ChessCrawl.Lib
