import ChessCrawl.Lib.Ledger
import ChessCrawl.Lib.Run

/-! Reserved export storage of one process: `ExportCapacity` with its release callbacks, shared by spooled exports and
by artifact downloads, which reserve another size under the same limits. -/
namespace ChessCrawl.Exports
open ChessCrawl.Lib
set_option autoImplicit false

/-! ## Limits -/

structure ExportLimits where
  maxRows : Int
  maxBytes : Int
  prepareSeconds : Int
  downloadSeconds : Int
  workspaceSlots : Int
  outstandingSpools : Int
  outstandingBytes : Int
  workspaceOutstandingSpools : Int
  workspaceOutstandingBytes : Int
deriving DecidableEq, Repr

/-- `_LIMIT_MAXIMUMS`, with the field that each entry reads. -/
def limitMaximums : List (String × (ExportLimits → Int) × Int) :=
  [("MAX_ROWS", ExportLimits.maxRows, 10000000), ("MAX_BYTES", ExportLimits.maxBytes, 4 * 1024 ^ 3),
    ("PREPARE_SECONDS", ExportLimits.prepareSeconds, 600), ("DOWNLOAD_SECONDS", ExportLimits.downloadSeconds, 3600),
    ("WORKSPACE_SLOTS", ExportLimits.workspaceSlots, 16), ("OUTSTANDING_SPOOLS", ExportLimits.outstandingSpools, 128),
    ("OUTSTANDING_BYTES", ExportLimits.outstandingBytes, 16 * 1024 ^ 3),
    ("WORKSPACE_OUTSTANDING_SPOOLS", ExportLimits.workspaceOutstandingSpools, 128),
    ("WORKSPACE_OUTSTANDING_BYTES", ExportLimits.workspaceOutstandingBytes, 16 * 1024 ^ 3)]

def rangeMessage (field : String) (maximum : Int) : String :=
  "CHESS_CRAWL_EXPORT_" ++ field ++ " must be an integer between 1 and " ++ toString maximum

/-- `__post_init__`: the text of the first `ValueError`. -/
def ExportLimits.postInit (l : ExportLimits) : Except String Unit :=
  match limitMaximums.find? fun (_, value, maximum) => !(decide (1 ≤ value l) && decide (value l ≤ maximum)) with
  | some (field, _, maximum) => .error (rangeMessage field maximum)
  | none =>
    if l.outstandingSpools ≤ l.workspaceOutstandingSpools then
      .error "CHESS_CRAWL_EXPORT_WORKSPACE_OUTSTANDING_SPOOLS must be less than CHESS_CRAWL_EXPORT_OUTSTANDING_SPOOLS"
    else if l.workspaceOutstandingBytes < l.maxBytes then
      .error "CHESS_CRAWL_EXPORT_MAX_BYTES must not exceed CHESS_CRAWL_EXPORT_WORKSPACE_OUTSTANDING_BYTES"
    else if l.outstandingBytes < l.workspaceOutstandingBytes + l.maxBytes then
      .error "CHESS_CRAWL_EXPORT_OUTSTANDING_BYTES must allow WORKSPACE_OUTSTANDING_BYTES plus one MAX_BYTES export"
    else .ok ()

/-- `replace(limits, max_bytes=size)` validates again. -/
def ExportLimits.withMaxBytes (l : ExportLimits) (size : Int) : Except String ExportLimits :=
  ({ l with maxBytes := size }).postInit.map fun _ => { l with maxBytes := size }

/-! ## Reservations -/

structure ExportCapacity where
  count : Int
  bytes : Int
  workspaces : String → Option (Int × Int)

/-- Why a reservation is not made: status 429, or the `ValueError` of limits that do not validate. -/
inductive Refusal
  | workspaceFull
  | full
  | downloadTooLarge
  | invalidLimits (message : String)
deriving DecidableEq, Repr

def Refusal.detail : Refusal → String
  | .workspaceFull => "This workspace's export temporary storage is at capacity"
  | .full => "Export temporary storage is at capacity"
  | .downloadTooLarge => "Export memory capacity cannot fit an artifact download"
  | .invalidLimits message => message

def ExportCapacity.entry (c : ExportCapacity) (workspace : String) : Int × Int := (c.workspaces workspace).getD (0, 0)

def ExportCapacity.reserve (c : ExportCapacity) (l : ExportLimits) (workspace : String) : Except Refusal ExportCapacity :=
  let (count, size) := c.entry workspace
  if l.workspaceOutstandingSpools ≤ count ∨ l.workspaceOutstandingBytes < size + l.maxBytes then .error .workspaceFull
  else if l.outstandingSpools ≤ c.count ∨ l.outstandingBytes < c.bytes + l.maxBytes then .error .full
  else .ok ⟨c.count + 1, c.bytes + l.maxBytes, Function.update c.workspaces workspace (some (count + 1, size + l.maxBytes))⟩

/-- The body of `release`; `none` is the `KeyError` of a workspace without an entry. -/
def ExportCapacity.release (c : ExportCapacity) (workspace : String) (size : Int) : Option ExportCapacity :=
  (c.workspaces workspace).map fun (count, held) =>
    ⟨c.count - 1, c.bytes - size,
      Function.update c.workspaces workspace (if count = 1 then none else some (count - 1, held - size))⟩

def downloadMemoryBytes : Int := 4 * (1024 * 1024)

/-- The check of `reserve_download_memory`. -/
def ExportLimits.fitsDownload (l : ExportLimits) : Bool :=
  decide (downloadMemoryBytes ≤ l.workspaceOutstandingBytes) &&
    decide (l.workspaceOutstandingBytes + downloadMemoryBytes ≤ l.outstandingBytes)

def ExportCapacity.reserveDownloadMemory (c : ExportCapacity) (l : ExportLimits) (workspace : String) :
    Except Refusal ExportCapacity :=
  if !l.fitsDownload then .error .downloadTooLarge
  else
    match l.withMaxBytes downloadMemoryBytes with
    | .error message => .error (.invalidLimits message)
    | .ok download => c.reserve download workspace

/-! ## Runs -/

/-- A release callback with what it closes over. -/
structure Callback where
  workspace : String
  size : Int
  released : Bool
deriving DecidableEq, Repr

/-- A process with every callback it has handed out. -/
structure Process where
  capacity : ExportCapacity
  callbacks : List Callback

inductive Event
  | reserve (workspace : String)
  | reserveDownload (workspace : String)
  | release (i : Nat)
deriving DecidableEq, Repr

/-- A reservation hands out its callback; a refusal changes nothing. -/
def Process.reserved (s : Process) (workspace : String) (size : Int) : Except Refusal ExportCapacity → Process
  | .error _ => s
  | .ok c => ⟨c, s.callbacks ++ [⟨workspace, size, false⟩]⟩

def Process.step (l : ExportLimits) (s : Process) : Event → Option Process
  | .reserve workspace => some (s.reserved workspace l.maxBytes (s.capacity.reserve l workspace))
  | .reserveDownload workspace =>
    some (s.reserved workspace downloadMemoryBytes (s.capacity.reserveDownloadMemory l workspace))
  | .release i => s.callbacks[i]?.bind fun k =>
    if k.released then some s
    else (s.capacity.release k.workspace k.size).map fun c => ⟨c, s.callbacks.set i { k with released := true }⟩

def exports (l : ExportLimits) : System Process Event where
  init s := s = ⟨⟨0, 0, fun _ => none⟩, []⟩
  step := Process.step l

/-! ## Limits that validate -/

/-- What `__post_init__` promises of the limits that reservations use. -/
structure ExportLimits.Accepted (l : ExportLimits) : Prop where
  size : 1 ≤ l.maxBytes
  spools : 1 ≤ l.workspaceOutstandingSpools
  others : l.workspaceOutstandingSpools < l.outstandingSpools
  fits : l.maxBytes ≤ l.workspaceOutstandingBytes
  room : l.workspaceOutstandingBytes + l.maxBytes ≤ l.outstandingBytes

variable {l : ExportLimits}

theorem postInit_iff : l.postInit = .ok () ↔ (∀ x ∈ limitMaximums, 1 ≤ x.2.1 l ∧ x.2.1 l ≤ x.2.2) ∧
    l.workspaceOutstandingSpools < l.outstandingSpools ∧ l.maxBytes ≤ l.workspaceOutstandingBytes ∧
    l.workspaceOutstandingBytes + l.maxBytes ≤ l.outstandingBytes := by
  unfold ExportLimits.postInit
  split
  · next field value maximum hfind =>
    have hbad := List.find?_some hfind
    have hmem := List.mem_of_find?_eq_some hfind
    simp only [reduceCtorEq, false_iff]
    intro hall
    have hin := hall.1 _ hmem
    simp [hin] at hbad
  · next hnone =>
    have hin : ∀ x ∈ limitMaximums, 1 ≤ x.2.1 l ∧ x.2.1 l ≤ x.2.2 := by
      intro x hx
      simpa using List.find?_eq_none.mp hnone x hx
    rw [and_iff_right hin]
    split
    · simp; omega
    · split
      · simp; omega
      · split
        · simp; omega
        · simp; omega

theorem postInit_accepted (h : l.postInit = .ok ()) : l.Accepted := by
  obtain ⟨hin, hothers, hfits, hroom⟩ := postInit_iff.mp h
  simp only [limitMaximums, List.forall_mem_cons] at hin
  obtain ⟨_, hbytes, _, _, _, _, _, hspools, _⟩ := hin
  exact ⟨hbytes.1, hspools.1, hothers, hfits, hroom⟩

theorem fitsDownload_iff : l.fitsDownload = true ↔ downloadMemoryBytes ≤ l.workspaceOutstandingBytes ∧
    l.workspaceOutstandingBytes + downloadMemoryBytes ≤ l.outstandingBytes := by
  unfold ExportLimits.fitsDownload
  rw [Bool.and_eq_true, decide_eq_true_eq, decide_eq_true_eq]

/-- Limits that pass the check of a download validate with its size. -/
theorem withMaxBytes_ok (h : l.postInit = .ok ()) (hfits : l.fitsDownload = true) :
    l.withMaxBytes downloadMemoryBytes = .ok { l with maxBytes := downloadMemoryBytes } := by
  obtain ⟨hin, hothers, _, _⟩ := postInit_iff.mp h
  obtain ⟨hworkspace, hprocess⟩ := fitsDownload_iff.mp hfits
  have hok : ({ l with maxBytes := downloadMemoryBytes } : ExportLimits).postInit = .ok () := by
    refine postInit_iff.mpr ⟨?_, hothers, hworkspace, hprocess⟩
    simp only [limitMaximums, List.forall_mem_cons, List.not_mem_nil, false_implies, implies_true, and_true] at hin ⊢
    obtain ⟨hrows, _, hrest⟩ := hin
    exact ⟨hrows, by decide, hrest⟩
  unfold ExportLimits.withMaxBytes
  rw [hok]
  rfl

/-- A download reserves like an export of its size. -/
theorem reserveDownloadMemory_eq (h : l.postInit = .ok ()) (hfits : l.fitsDownload = true) (c : ExportCapacity)
    (workspace : String) :
    c.reserveDownloadMemory l workspace = c.reserve { l with maxBytes := downloadMemoryBytes } workspace := by
  unfold ExportCapacity.reserveDownloadMemory
  rw [withMaxBytes_ok h hfits, hfits]
  rfl

/-! ## Books -/

def Callback.Held (k : Callback) : Prop := k.released = false

def Callback.HeldBy (workspace : String) (k : Callback) : Prop := k.released = false ∧ k.workspace = workspace

instance (k : Callback) : Decidable k.Held := inferInstanceAs (Decidable (k.released = false))

instance (workspace : String) (k : Callback) : Decidable (k.HeldBy workspace) :=
  inferInstanceAs (Decidable (k.released = false ∧ k.workspace = workspace))

/-- The number and the bytes of a workspace's unreleased reservations. -/
def spoolsOf (ks : List Callback) (workspace : String) : Int := total (Callback.HeldBy workspace) (fun _ => 1) ks

def bytesOf (ks : List Callback) (workspace : String) : Int := total (Callback.HeldBy workspace) Callback.size ks

def spools (ks : List Callback) : Int := total Callback.Held (fun _ => 1) ks

def bytes (ks : List Callback) : Int := total Callback.Held Callback.size ks

/-- The counters are those of the unreleased reservations, and within the limits. -/
structure Books (l : ExportLimits) (s : Process) : Prop where
  count : s.capacity.count = spools s.callbacks
  bytes : s.capacity.bytes = bytes s.callbacks
  entries : ∀ workspace, s.capacity.workspaces workspace =
    if spoolsOf s.callbacks workspace = 0 then none
    else some (spoolsOf s.callbacks workspace, bytesOf s.callbacks workspace)
  sizes : ∀ k ∈ s.callbacks, 0 ≤ k.size
  spoolsFit : spools s.callbacks ≤ l.outstandingSpools
  bytesFit : Exports.bytes s.callbacks ≤ l.outstandingBytes
  spoolsOfFit : ∀ workspace, spoolsOf s.callbacks workspace ≤ l.workspaceOutstandingSpools
  bytesOfFit : ∀ workspace, bytesOf s.callbacks workspace ≤ l.workspaceOutstandingBytes

/-- A workspace holds a reservation exactly when its number is not zero. -/
theorem spoolsOf_eq_zero {ks : List Callback} {workspace : String} :
    spoolsOf ks workspace = 0 ↔ ∀ k ∈ ks, ¬ k.HeldBy workspace := by
  unfold spoolsOf
  rw [total_one, Int.natCast_eq_zero, List.length_eq_zero_iff, List.filter_eq_nil_iff]
  simp only [decide_eq_true_eq]

theorem bytesOf_eq_zero {ks : List Callback} {workspace : String} (h : spoolsOf ks workspace = 0) :
    bytesOf ks workspace = 0 :=
  total_eq_zero (spoolsOf_eq_zero.mp h)

/-- The entry that `get` reads, with its default. -/
theorem Books.entry {s : Process} (h : Books l s) (workspace : String) :
    s.capacity.entry workspace = (spoolsOf s.callbacks workspace, bytesOf s.callbacks workspace) := by
  unfold ExportCapacity.entry
  rw [h.entries]
  split
  · next hzero => rw [hzero, bytesOf_eq_zero hzero]; rfl
  · rfl

theorem spools_append (ks : List Callback) (k : Callback) (hk : k.Held) : spools (ks ++ [k]) = spools ks + 1 := by
  unfold spools
  rw [total_append, total_singleton, if_pos hk]

theorem bytes_append (ks : List Callback) (k : Callback) (hk : k.Held) : bytes (ks ++ [k]) = bytes ks + k.size := by
  unfold bytes
  rw [total_append, total_singleton, if_pos hk]

theorem spoolsOf_append (ks : List Callback) (k : Callback) (hk : k.Held) (workspace : String) :
    spoolsOf (ks ++ [k]) workspace = spoolsOf ks workspace + if k.workspace = workspace then 1 else 0 := by
  unfold spoolsOf
  rw [total_append, total_singleton]
  simp only [Callback.HeldBy, show k.released = false from hk, true_and]

theorem bytesOf_append (ks : List Callback) (k : Callback) (hk : k.Held) (workspace : String) :
    bytesOf (ks ++ [k]) workspace = bytesOf ks workspace + if k.workspace = workspace then k.size else 0 := by
  unfold bytesOf
  rw [total_append, total_singleton]
  simp only [Callback.HeldBy, show k.released = false from hk, true_and]

theorem spoolsOf_nonneg (ks : List Callback) (workspace : String) : 0 ≤ spoolsOf ks workspace :=
  total_nonneg fun _ _ => by decide

/-- A reservation of any size posts it to the process and to its workspace. -/
theorem Books.reserve {s : Process} (h : Books l s) {size : Int} (hsize : 0 ≤ size) {workspace : String}
    {c : ExportCapacity} (hc : s.capacity.reserve { l with maxBytes := size } workspace = .ok c) :
    Books l ⟨c, s.callbacks ++ [⟨workspace, size, false⟩]⟩ := by
  have hheld : Callback.Held ⟨workspace, size, false⟩ := rfl
  unfold ExportCapacity.reserve at hc
  rw [h.entry] at hc
  dsimp only at hc
  split at hc
  · cases hc
  · next hworkspace =>
    split at hc
    · cases hc
    · next hprocess =>
      cases hc
      rw [h.count, h.bytes] at hprocess
      have hnonneg := spoolsOf_nonneg s.callbacks workspace
      refine ⟨?_, ?_, fun w => ?_, ?_, ?_, ?_, fun w => ?_, fun w => ?_⟩
      · rw [spools_append _ _ hheld, h.count]
      · rw [bytes_append _ _ hheld, h.bytes]
      · rw [spoolsOf_append _ _ hheld, bytesOf_append _ _ hheld]
        dsimp only
        by_cases hw : w = workspace
        · rw [hw, Function.update_self, if_pos rfl, if_pos rfl, if_neg (by omega)]
        · rw [Function.update_of_ne hw, if_neg (Ne.symm hw), if_neg (Ne.symm hw), add_zero, add_zero]
          exact h.entries w
      · intro k hk
        rcases List.mem_append.mp hk with hold | hnew
        · exact h.sizes k hold
        · rw [List.mem_singleton.mp hnew]
          exact hsize
      · rw [spools_append _ _ hheld]
        omega
      · rw [bytes_append _ _ hheld]
        dsimp only
        omega
      · rw [spoolsOf_append _ _ hheld]
        have hold := h.spoolsOfFit w
        dsimp only
        split
        · next heq =>
          subst heq
          omega
        · omega
      · rw [bytesOf_append _ _ hheld]
        have hold := h.bytesOfFit w
        dsimp only
        split
        · next heq =>
          subst heq
          omega
        · omega

section Release
variable {ks : List Callback} {i : Nat} {k : Callback}

theorem spools_release (hk : ks[i]? = some k) (hheld : k.Held) :
    spools (ks.set i { k with released := true }) = spools ks - 1 := by
  unfold spools
  rw [total_set hk, if_pos hheld, if_neg nofun, add_zero]

theorem bytes_release (hk : ks[i]? = some k) (hheld : k.Held) :
    bytes (ks.set i { k with released := true }) = bytes ks - k.size := by
  unfold bytes
  rw [total_set hk, if_pos hheld, if_neg nofun, add_zero]

theorem spoolsOf_release (hk : ks[i]? = some k) (hheld : k.Held) (workspace : String) :
    spoolsOf (ks.set i { k with released := true }) workspace =
      spoolsOf ks workspace - if k.workspace = workspace then 1 else 0 := by
  unfold spoolsOf
  have hreleased : ¬ Callback.HeldBy workspace { k with released := true } := fun h => nomatch h.1
  rw [total_set hk, if_neg hreleased, add_zero]
  simp only [Callback.HeldBy, show k.released = false from hheld, true_and]

theorem bytesOf_release (hk : ks[i]? = some k) (hheld : k.Held) (workspace : String) :
    bytesOf (ks.set i { k with released := true }) workspace =
      bytesOf ks workspace - if k.workspace = workspace then k.size else 0 := by
  unfold bytesOf
  have hreleased : ¬ Callback.HeldBy workspace { k with released := true } := fun h => nomatch h.1
  rw [total_set hk, if_neg hreleased, add_zero]
  simp only [Callback.HeldBy, show k.released = false from hheld, true_and]

end Release

/-- The first call of a callback finds its workspace's entry and takes the reservation back. -/
theorem Books.release {s : Process} (h : Books l s) {i : Nat} {k : Callback} (hk : s.callbacks[i]? = some k)
    (hheld : k.Held) : ∃ c, s.capacity.release k.workspace k.size = some c ∧
      Books l ⟨c, s.callbacks.set i { k with released := true }⟩ := by
  have hmem : k ∈ s.callbacks := List.mem_of_getElem? hk
  have hsize := h.sizes k hmem
  have hsome : spoolsOf s.callbacks k.workspace ≠ 0 := fun hzero => spoolsOf_eq_zero.mp hzero k hmem ⟨hheld, rfl⟩
  have hentry := h.entries k.workspace
  rw [if_neg hsome] at hentry
  have hrelease : s.capacity.release k.workspace k.size = some ⟨s.capacity.count - 1, s.capacity.bytes - k.size,
      Function.update s.capacity.workspaces k.workspace (if spoolsOf s.callbacks k.workspace = 1 then none
        else some (spoolsOf s.callbacks k.workspace - 1, bytesOf s.callbacks k.workspace - k.size))⟩ := by
    unfold ExportCapacity.release
    rw [hentry]
    rfl
  refine ⟨_, hrelease, ?_, ?_, fun w => ?_, ?_, ?_, ?_, fun w => ?_, fun w => ?_⟩
  · rw [spools_release hk hheld, h.count]
  · rw [bytes_release hk hheld, h.bytes]
  · rw [spoolsOf_release hk hheld, bytesOf_release hk hheld]
    dsimp only
    by_cases hw : w = k.workspace
    · rw [hw, Function.update_self, if_pos rfl, if_pos rfl]
      by_cases hone : spoolsOf s.callbacks k.workspace = 1
      · rw [if_pos hone, if_pos (by omega)]
      · rw [if_neg hone, if_neg (by omega)]
    · rw [Function.update_of_ne hw, if_neg (Ne.symm hw), if_neg (Ne.symm hw), sub_zero, sub_zero]
      exact h.entries w
  · intro k' hk'
    rcases List.mem_or_eq_of_mem_set hk' with hold | hnew
    · exact h.sizes k' hold
    · rw [hnew]
      exact hsize
  · have hold := h.spoolsFit
    rw [spools_release hk hheld]
    omega
  · have hold := h.bytesFit
    rw [bytes_release hk hheld]
    omega
  · have hold := h.spoolsOfFit w
    rw [spoolsOf_release hk hheld]
    split <;> omega
  · have hold := h.bytesOfFit w
    rw [bytesOf_release hk hheld]
    split <;> omega

theorem Books.reserved {s : Process} (h : Books l s) {size : Int} (hsize : 0 ≤ size) (workspace : String) :
    Books l (s.reserved workspace size (s.capacity.reserve { l with maxBytes := size } workspace)) := by
  cases hc : s.capacity.reserve { l with maxBytes := size } workspace with
  | error e => exact h
  | ok c => exact h.reserve hsize hc

/-- Every event keeps the books. -/
theorem Books.step (hl : l.postInit = .ok ()) {s t : Process} {e : Event} (h : Books l s) (ht : s.step l e = some t) :
    Books l t := by
  cases e with
  | reserve workspace =>
    cases ht
    exact h.reserved (Int.le_trans (by decide) (postInit_accepted hl).size) workspace
  | reserveDownload workspace =>
    cases ht
    cases hfits : l.fitsDownload with
    | false =>
      have hrefused : s.capacity.reserveDownloadMemory l workspace = .error .downloadTooLarge := by
        unfold ExportCapacity.reserveDownloadMemory
        rw [hfits]
        rfl
      rw [hrefused]
      exact h
    | true =>
      rw [reserveDownloadMemory_eq hl hfits]
      exact h.reserved (by decide) workspace
  | release i =>
    unfold Process.step at ht
    dsimp only at ht
    cases hk : s.callbacks[i]? with
    | none =>
      rw [hk] at ht
      cases ht
    | some k =>
      rw [hk, Option.bind_some] at ht
      split at ht
      · cases ht
        exact h
      · next hheld =>
        obtain ⟨c, hc, hbooks⟩ := h.release hk (by simpa [Callback.Held] using hheld)
        rw [hc] at ht
        cases ht
        exact hbooks

theorem books (hl : l.postInit = .ok ()) {s : Process} (hr : Reachable (exports l) s) : Books l s := by
  refine hr.invariant ?_ fun s e t h ht => h.step hl ht
  rintro s rfl
  have hacc := postInit_accepted hl
  have hspools := hacc.spools
  have hothers := hacc.others
  have hsize := hacc.size
  have hfits := hacc.fits
  have hroom := hacc.room
  refine ⟨rfl, rfl, fun _ => rfl, nofun, ?_, ?_, fun _ => ?_, fun _ => ?_⟩
  · show (0 : Int) ≤ _
    omega
  · show (0 : Int) ≤ _
    omega
  · show (0 : Int) ≤ _
    omega
  · show (0 : Int) ≤ _
    omega

/-! ## Room for another workspace -/

theorem spools_single {ks : List Callback} {workspace : String} (h : ∀ k ∈ ks, k.Held → k.workspace = workspace) :
    spools ks = spoolsOf ks workspace ∧ bytes ks = bytesOf ks workspace := by
  have hsame : ∀ k ∈ ks, k.Held ↔ k.HeldBy workspace := fun k hk => ⟨fun hh => ⟨hh, h k hk hh⟩, fun hh => hh.1⟩
  exact ⟨total_select hsame, total_select hsame⟩

/-- While one workspace holds every reservation, the limits leave room for another one's. -/
theorem Books.room {s : Process} (h : Books l s) (hspools : 1 ≤ l.workspaceOutstandingSpools)
    (hothers : l.workspaceOutstandingSpools < l.outstandingSpools) {size : Int}
    (hfits : size ≤ l.workspaceOutstandingBytes) (hroom : l.workspaceOutstandingBytes + size ≤ l.outstandingBytes)
    {workspace other : String} (hone : ∀ k ∈ s.callbacks, k.Held → k.workspace = workspace) (hne : other ≠ workspace) :
    ∃ c, s.capacity.reserve { l with maxBytes := size } other = .ok c := by
  have hzero : spoolsOf s.callbacks other = 0 := by
    refine spoolsOf_eq_zero.mpr fun k hk hheld => hne ?_
    rw [← hheld.2, hone k hk hheld.1]
  obtain ⟨hcount, hbytes⟩ := spools_single hone
  have hworkspace := h.spoolsOfFit workspace
  have hworkspaceBytes := h.bytesOfFit workspace
  unfold ExportCapacity.reserve
  rw [h.entry, hzero, bytesOf_eq_zero hzero, h.count, h.bytes, hcount, hbytes]
  dsimp only
  rw [if_neg (by omega), if_neg (by omega)]
  exact ⟨_, rfl⟩

/-- The accounts of every run, and room for a second workspace in each of its states. -/
theorem export_capacity_exact (l : ExportLimits) (hl : l.postInit = .ok ()) {s : Process}
    (hr : Reachable (exports l) s) :
    (s.capacity.count = spools s.callbacks ∧ s.capacity.bytes = bytes s.callbacks) ∧
    (∀ workspace, ((s.capacity.workspaces workspace).isSome = true ↔ ∃ k ∈ s.callbacks, k.HeldBy workspace) ∧
      ∀ entry, s.capacity.workspaces workspace = some entry →
        entry = (spoolsOf s.callbacks workspace, bytesOf s.callbacks workspace) ∧
        0 ≤ entry.1 ∧ entry.1 ≤ l.workspaceOutstandingSpools ∧ 0 ≤ entry.2 ∧ entry.2 ≤ l.workspaceOutstandingBytes) ∧
    (0 ≤ s.capacity.count ∧ s.capacity.count ≤ l.outstandingSpools ∧
      0 ≤ s.capacity.bytes ∧ s.capacity.bytes ≤ l.outstandingBytes) ∧
    (∀ i < s.callbacks.length, ∃ t, s.step l (.release i) = some t) ∧
    ∀ workspace other, (∀ k ∈ s.callbacks, k.Held → k.workspace = workspace) → other ≠ workspace →
      (∃ c, s.capacity.reserve l other = .ok c) ∧
      (l.fitsDownload = true → ∃ c, s.capacity.reserveDownloadMemory l other = .ok c) := by
  have h := books hl hr
  have hacc := postInit_accepted hl
  refine ⟨⟨h.count, h.bytes⟩, fun workspace => ⟨?_, fun entry he => ?_⟩, ?_, fun i hi => ?_, ?_⟩
  · rw [h.entries]
    by_cases hzero : spoolsOf s.callbacks workspace = 0
    · rw [if_pos hzero]
      simpa using spoolsOf_eq_zero.mp hzero
    · rw [if_neg hzero]
      simpa [spoolsOf_eq_zero] using hzero
  · have hentry := h.entry workspace
    unfold ExportCapacity.entry at hentry
    rw [he, Option.getD_some] at hentry
    rw [hentry]
    exact ⟨rfl, spoolsOf_nonneg _ _, h.spoolsOfFit workspace, total_nonneg h.sizes, h.bytesOfFit workspace⟩
  · rw [h.count, h.bytes]
    exact ⟨total_nonneg fun _ _ => by decide, h.spoolsFit, total_nonneg h.sizes, h.bytesFit⟩
  · have hk : s.callbacks[i]? = some s.callbacks[i] := List.getElem?_eq_getElem hi
    unfold Process.step
    dsimp only
    rw [hk, Option.bind_some]
    split
    · exact ⟨s, rfl⟩
    · next hheld =>
      obtain ⟨c, hc, _⟩ := h.release hk (by simpa [Callback.Held] using hheld)
      rw [hc]
      exact ⟨_, rfl⟩
  · intro workspace other hone hne
    refine ⟨h.room hacc.spools hacc.others hacc.fits hacc.room hone hne, fun hfits => ?_⟩
    obtain ⟨hworkspace, hprocess⟩ := fitsDownload_iff.mp hfits
    rw [reserveDownloadMemory_eq hl hfits]
    exact h.room hacc.spools hacc.others hworkspace hprocess hone hne

def defaultLimits : ExportLimits :=
  ⟨100000, 64 * 1024 * 1024, 60, 300, 2, 4, 256 * 1024 * 1024, 2, 128 * 1024 * 1024⟩

/-- An export is released twice while a download of the same workspace is open; another workspace reserves. -/
theorem export_capacity_exact_released_twice : ∃ s, Reachable (exports defaultLimits) s ∧
    s.callbacks = [⟨"a", 64 * 1024 * 1024, true⟩, ⟨"a", downloadMemoryBytes, false⟩] ∧
    s.capacity.bytes = downloadMemoryBytes ∧ (∃ c, s.capacity.reserve defaultLimits "b" = .ok c) ∧
    ∃ c, s.capacity.reserveDownloadMemory defaultLimits "b" = .ok c := by
  obtain ⟨s, hr, hp⟩ := Reach.of_exec (exports defaultLimits) (fun _ _ => True) (s := ⟨⟨0, 0, fun _ => none⟩, []⟩) rfl
    [.reserve "a", .reserveDownload "a", .release 0, .release 0]
    (fun s => decide (s.callbacks = [⟨"a", 64 * 1024 * 1024, true⟩, ⟨"a", downloadMemoryBytes, false⟩]))
    (by decide +kernel)
  have hcallbacks := of_decide_eq_true hp
  obtain ⟨⟨_, hbytes⟩, _, _, _, hroom⟩ := export_capacity_exact defaultLimits rfl hr
  obtain ⟨hreserve, hdownload⟩ := hroom "a" "b" (by rw [hcallbacks]; decide) (by decide)
  refine ⟨s, hr, hcallbacks, ?_, hreserve, hdownload rfl⟩
  rw [hbytes, hcallbacks]
  rfl

end ChessCrawl.Exports
