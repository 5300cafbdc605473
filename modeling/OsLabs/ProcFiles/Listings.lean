import OsLabs.Core.Fgets

/-! # Listing lines of a file

Most labs read a file of the kernel line by line and print those that begin with or
contain one of some keys, some of them only up to a limit. The loops differ in their
buffers, keys and limits. Each prints pieces of the size of its buffer for lines.
-/

namespace OsLabs.ProcFiles

open Text

/-- `strncmp(line, key, strlen(key)) == 0` or `strstr(line, key)` -/
inductive Test where
  | starts (key : String)
  | contains (key : String)
  deriving DecidableEq

/-- Where a loop ends before the file does. -/
inductive Limit where
  | none
  | reads (k : Nat)  -- `while (fgets(..) && n++ < k)`
  | prints (k : Nat)  -- `while (fgets(..) && n < k)`, where `n` counts the lines printed
  | breaks (k : Nat) (hk : 0 < k)  -- `if (++n >= k) break;` behind the `printf`
  deriving DecidableEq

/-- A loop that prints lines; without tests it prints all of them. -/
structure Listing where
  size : Nat  -- of the buffer
  indent : String
  tests : Option (List Test)
  limit : Limit
  hsize : 2 ≤ size

def Test.holds (line : List Char) : Test → Bool
  | .starts key => hasPrefix line key
  | .contains key => strstr line key.toList

structure ListState where
  out : List (List Char)
  n : Nat

namespace Listing

def shows (f : Listing) (line : List Char) : Bool :=
  match f.tests with
  | none => true
  | some tests => tests.any (Test.holds line)

/-- `printf("  %s", line)` -/
def format (f : Listing) (line : List Char) : List Char := f.indent.toList ++ cString line

def print (f : Listing) (s : ListState) (line : List Char) : ListState :=
  { s with out := s.out ++ [f.format line] }

def step (f : Listing) (s : ListState) (line : List Char) : ListState ⊕ ListState :=
  match f.limit with
  | .none => .inl (if f.shows line then f.print s line else s)
  | .reads k =>
      if s.n < k then .inl { (if f.shows line then f.print s line else s) with n := s.n + 1 }
      else .inr s
  | .prints k =>
      if s.n < k then .inl (if f.shows line then { f.print s line with n := s.n + 1 } else s)
      else .inr s
  | .breaks k _ =>
      if f.shows line then
        if k ≤ s.n + 1 then .inr { f.print s line with n := s.n + 1 }
        else .inl { f.print s line with n := s.n + 1 }
      else .inl s

/-- What the loop prints, one entry for a call of `printf`. -/
def printed (f : Listing) (text : List Char) : Option (List (List Char)) :=
  (whileFgets f.size f.step (fopen text) ⟨[], 0⟩).map (·.2.out)

/-! ## What a loop prints -/

/-- What is left of the limit after `n` lines. -/
def select (f : Listing) (n : Nat) (ls : List (List Char)) : List (List Char) :=
  match f.limit with
  | .none => ls.filter f.shows
  | .reads k => (ls.take (k - n)).filter f.shows
  | .prints k => (ls.filter f.shows).take (k - n)
  | .breaks k _ => (ls.filter f.shows).take (k - n)

theorem scan_step_none {f : Listing} (hlimit : f.limit = .none) (s : ListState)
    (ps : List (List Char)) :
    (scan f.step s ps).1.out = s.out ++ (ps.filter f.shows).map f.format := by
  induction ps generalizing s with
  | nil => simp [scan]
  | cons p ps ih =>
      simp only [scan, step, hlimit]
      rw [ih]
      by_cases hp : f.shows p = true
      · simp [hp, print]
      · simp [hp]

theorem scan_step_reads {f : Listing} {k : Nat} (hlimit : f.limit = .reads k) (s : ListState)
    (ps : List (List Char)) :
    (scan f.step s ps).1.out = s.out ++ ((ps.take (k - s.n)).filter f.shows).map f.format := by
  induction ps generalizing s with
  | nil => simp [scan]
  | cons p ps ih =>
      by_cases hn : s.n < k
      · have hleft : k - s.n = k - (s.n + 1) + 1 := by omega
        simp only [scan, step, hlimit, if_pos hn]
        rw [ih, hleft, List.take_succ_cons]
        by_cases hp : f.shows p = true
        · simp [hp, print]
        · simp [hp]
      · have hleft : k - s.n = 0 := by omega
        simp [scan, step, hlimit, hn, hleft]

theorem scan_step_prints {f : Listing} {k : Nat} (hlimit : f.limit = .prints k) (s : ListState)
    (ps : List (List Char)) :
    (scan f.step s ps).1.out = s.out ++ ((ps.filter f.shows).take (k - s.n)).map f.format := by
  induction ps generalizing s with
  | nil => simp [scan]
  | cons p ps ih =>
      by_cases hn : s.n < k
      · simp only [scan, step, hlimit, if_pos hn]
        rw [ih]
        by_cases hp : f.shows p = true
        · have hleft : k - s.n = k - (s.n + 1) + 1 := by omega
          rw [List.filter_cons_of_pos hp, hleft, List.take_succ_cons]
          simp [hp, print]
        · simp [hp]
      · have hleft : k - s.n = 0 := by omega
        simp [scan, step, hlimit, hn, hleft]

theorem scan_step_breaks {f : Listing} {k : Nat} {hk : 0 < k} (hlimit : f.limit = .breaks k hk)
    {s : ListState} (hn : s.n < k) (ps : List (List Char)) :
    (scan f.step s ps).1.out = s.out ++ ((ps.filter f.shows).take (k - s.n)).map f.format := by
  induction ps generalizing s with
  | nil => simp [scan]
  | cons p ps ih =>
      by_cases hp : f.shows p = true
      · have hleft : k - s.n = k - (s.n + 1) + 1 := by omega
        rw [List.filter_cons_of_pos hp, hleft, List.take_succ_cons]
        by_cases hlast : k ≤ s.n + 1
        · have hzero : k - (s.n + 1) = 0 := by omega
          simp [scan, step, hlimit, hp, hlast, hzero, print]
        · have hnext : (⟨s.out ++ [f.format p], s.n + 1⟩ : ListState).n < k := by
            show s.n + 1 < k
            omega
          simp only [scan, step, hlimit, hp, if_true, if_neg hlast, print]
          rw [ih hnext]
          simp
      · simp only [scan, step, hlimit, if_neg hp, List.filter_cons_of_neg hp]
        exact ih hn

theorem printed_eq (f : Listing) (text : List Char) :
    f.printed text = some ((f.select 0 (pieces (f.size - 1) text)).map f.format) := by
  rw [printed, whileFgets_eq f.hsize, Option.map_some, Option.some.injEq, select]
  cases hlimit : f.limit with
  | none => simpa using scan_step_none hlimit ⟨[], 0⟩ (pieces (f.size - 1) text)
  | reads k => simpa using scan_step_reads hlimit ⟨[], 0⟩ (pieces (f.size - 1) text)
  | prints k => simpa using scan_step_prints hlimit ⟨[], 0⟩ (pieces (f.size - 1) text)
  | breaks k hk =>
      simpa using scan_step_breaks hlimit (s := ⟨[], 0⟩) hk (pieces (f.size - 1) text)

/-! ## Lines and pieces -/

/-- The lines the loop is meant to print. -/
def wanted (f : Listing) (text : List Char) : List (List Char) :=
  (f.select 0 (lines text)).map (f.indent.toList ++ ·)

def begins (f : Listing) (piece : List Char) : Prop :=
  ∃ key, Test.starts key ∈ f.tests.getD [] ∧ hasPrefix piece key

theorem format_of_not_mem (f : Listing) {l : List Char} (h : '\x00' ∉ l) :
    f.format l = f.indent.toList ++ l := by
  rw [format, cString_eq_self_iff.mpr h]

theorem not_mem_of_select (f : Listing) {n : Nat} {c : Char} {ls : List (List Char)}
    (h : ∀ l ∈ ls, c ∉ l) : ∀ l ∈ f.select n ls, c ∉ l := by
  intro l hl
  apply h
  unfold select at hl
  split at hl
  · exact List.mem_of_mem_filter hl
  · exact List.mem_of_mem_take (List.mem_of_mem_filter hl)
  · exact List.mem_of_mem_filter (List.mem_of_mem_take hl)
  · exact List.mem_of_mem_filter (List.mem_of_mem_take hl)

theorem printed_of_fits (f : Listing) {text : List Char} (hnul : ∀ l ∈ lines text, '\x00' ∉ l)
    (hfit : ∀ l ∈ lines text, l.length ≤ f.size - 1) : f.printed text = some (f.wanted text) := by
  rw [printed_eq, pieces_eq_lines hfit, Option.some.injEq, wanted]
  apply List.map_congr_left
  intro l hl
  exact f.format_of_not_mem (f.not_mem_of_select hnul l hl)

/-- A test that holds for a piece holds for its line, but for a key that a later piece
begins with. -/
theorem shows_of_piece {f : Listing} {k : Nat} {l : List Char} (hnul : '\x00' ∉ l)
    (hshows : f.shows (piece (f.size - 1) k l) = true)
    (hlater : 0 < k → ¬ f.begins (piece (f.size - 1) k l)) : f.shows l = true := by
  have hstring := cString_isPrefix (piece (f.size - 1) k l)
  have hinfix : piece (f.size - 1) k l <:+: l :=
    (List.take_prefix _ _).isInfix.trans (List.drop_suffix _ _).isInfix
  unfold shows at hshows ⊢
  cases htests : f.tests with
  | none => rfl
  | some tests =>
      simp only [htests, List.any_eq_true] at hshows ⊢
      obtain ⟨t, ht, hholds⟩ := hshows
      refine ⟨t, ht, ?_⟩
      cases t with
      | contains key =>
          have hkey : key.toList <:+: cString (piece (f.size - 1) k l) := of_decide_eq_true hholds
          have hline : strstr l key.toList := by
            rw [strstr, cString_eq_self_iff.mpr hnul]
            exact (hkey.trans hstring.isInfix).trans hinfix
          exact decide_eq_true hline
      | starts key =>
          have hkey : key.toList <+: cString (piece (f.size - 1) k l) := of_decide_eq_true hholds
          cases k with
          | zero =>
              rw [piece_zero] at hkey hstring
              have hline : hasPrefix l key := by
                rw [hasPrefix, cString_eq_self_iff.mpr hnul]
                exact (hkey.trans hstring).trans (List.take_prefix _ _)
              exact decide_eq_true hline
          | succ k =>
              refine (hlater (Nat.succ_pos k) ⟨key, ?_, hkey⟩).elim
              simpa [htests] using ht

theorem shows_of_begins {f : Listing} {p : List Char} (h : f.begins p) : f.shows p = true := by
  obtain ⟨key, hkey, hprefix⟩ := h
  unfold shows
  cases htests : f.tests with
  | none => rfl
  | some tests =>
      rw [htests] at hkey
      rw [List.any_eq_true]
      exact ⟨.starts key, hkey, decide_eq_true hprefix⟩

/-- A loop without a limit prints the lines it is meant to print exactly when each of
them fits the buffer and no line has a later piece that begins with a key. -/
theorem printed_eq_iff {f : Listing} (hlimit : f.limit = .none) {text : List Char}
    (hnul : ∀ l ∈ lines text, '\x00' ∉ l) :
    f.printed text = some (f.wanted text) ↔
      (∀ l ∈ lines text, f.shows l = true → l.length ≤ f.size - 1) ∧
        ∀ l ∈ lines text, ∀ k, 0 < k → (f.size - 1) * k < l.length →
          ¬ f.begins (piece (f.size - 1) k l) := by
  have hsize : 0 < f.size - 1 := by
    have := f.hsize
    omega
  have hone : ∀ l ∈ lines text, l.length ≤ f.size - 1 → chunks (f.size - 1) l = [l] :=
    fun l hl hfit => chunks_of_length_le (ne_nil_of_mem_lines hl) hfit
  have hparts : f.printed text = some (f.wanted text) ↔
      ((lines text).flatMap fun l => (chunks (f.size - 1) l).filter f.shows).map f.format =
        ((lines text).filter f.shows).map (f.indent.toList ++ ·) := by
    simp only [printed_eq, wanted, select, hlimit, pieces, List.filter_flatMap, Option.some.injEq]
  rw [hparts]
  constructor
  · intro heq
    have hfits : ∀ l ∈ lines text, f.shows l = true → l.length ≤ f.size - 1 := by
      intro l hl hshows
      have hmem := List.mem_map_of_mem (f := (f.indent.toList ++ ·))
        (List.mem_filter.mpr ⟨hl, hshows⟩)
      rw [← heq, List.mem_map] at hmem
      obtain ⟨p, hp, hformat⟩ := hmem
      rw [format, List.append_cancel_left_eq] at hformat
      obtain ⟨l', _, hpiece⟩ := List.mem_flatMap.mp hp
      obtain ⟨k, _, rfl⟩ := (mem_chunks hsize).mp (List.mem_of_mem_filter hpiece)
      have hlength := (cString_isPrefix (piece (f.size - 1) k l')).length_le
      rw [hformat, piece, List.length_take] at hlength
      omega
    have hpieces := (map_flatMap_eq_map_filter_iff (p := f.shows) (fun l hl hshows => by
      rw [hone l hl (hfits l hl hshows)]
      simp [hshows])).mp heq
    refine ⟨hfits, ?_⟩
    intro l hl k hk hlt hbegins
    have hmem : piece (f.size - 1) k l ∈ (chunks (f.size - 1) l).filter f.shows :=
      List.mem_filter.mpr ⟨(mem_chunks hsize).mpr ⟨k, hlt, rfl⟩, shows_of_begins hbegins⟩
    have hl' := hpieces l hl
    cases hshows : f.shows l with
    | true =>
        have hfit := hfits l hl hshows
        have hle : f.size - 1 ≤ (f.size - 1) * k := Nat.le_mul_of_pos_right _ hk
        omega
    | false =>
        rw [hshows, if_neg (by simp), List.map_eq_nil_iff] at hl'
        rw [hl'] at hmem
        cases hmem
  · rintro ⟨hfits, hlater⟩
    apply (map_flatMap_eq_map_filter_iff (p := f.shows) (fun l hl hshows => by
      rw [hone l hl (hfits l hl hshows)]
      simp [hshows])).mpr
    intro l hl
    cases hshows : f.shows l with
    | true =>
        rw [hone l hl (hfits l hl hshows), if_pos rfl]
        simp [hshows, f.format_of_not_mem (hnul l hl)]
    | false =>
        rw [if_neg (by simp), List.map_eq_nil_iff, List.filter_eq_nil_iff]
        intro p hp hpshows
        obtain ⟨k, hlt, rfl⟩ := (mem_chunks hsize).mp hp
        have hline := shows_of_piece (hnul l hl) hpshows fun hk => hlater l hl k hk hlt
        rw [hshows] at hline
        cases hline

/-! ## The loops of the labs -/

def starts (size : Nat) (hsize : 2 ≤ size) (indent : String) (keys : List String) : Listing :=
  ⟨size, indent, some (keys.map .starts), .none, hsize⟩

def contains (size : Nat) (hsize : 2 ≤ size) (indent : String) (keys : List String) : Listing :=
  ⟨size, indent, some (keys.map .contains), .none, hsize⟩

def first (size : Nat) (hsize : 2 ≤ size) (indent : String) (k : Nat) : Listing :=
  ⟨size, indent, none, .reads k, hsize⟩

/-- `/proc/meminfo` in the second lab. -/
def demoMemoryInfo : Listing :=
  starts 256 (by decide) "  " ["MemTotal", "MemFree", "MemAvailable", "Cached", "SwapTotal",
    "HugePages_Total", "Hugepagesize"]

/-- `/proc/meminfo` -/
def demoMeminfoZones : Listing :=
  starts 256 (by decide) "    " ["MemTotal", "MemAvailable", "HugePages", "Huge", "DirectMap",
    "NFS", "Committed"]

/-- `/proc/vmstat` -/
def demoVmstat : Listing :=
  starts 256 (by decide) "  " ["nr_free_pages", "nr_active_anon", "nr_inactive_anon",
    "nr_active_file", "nr_inactive_file", "pgfault", "pgmajfault", "pswpin", "pswpout"]

/-- `/proc/self/status` -/
def demoMmStruct : Listing := starts 256 (by decide) "  " ["Vm", "Rss", "Threads"]

/-- `/proc/<pid>/status` in the lab on processes. -/
def statusVmFields : Listing :=
  starts 256 (by decide) "    " ["Pid:", "PPid:", "VmPeak:", "VmRSS:", "VmData:", "VmStk:",
    "Threads:", "NSpid:"]

/-- `/proc/<pid>/status` in the lab on the scheduler. -/
def statusSchedFields : Listing :=
  starts 256 (by decide) "    " ["voluntary", "nonvoluntary", "Threads:", "SigCgt:"]

/-- `/proc/1/status` -/
def demoPid1Info : Listing :=
  starts 256 (by decide) "    " ["Name:", "Pid:", "PPid:", "State:", "Threads:", "VmRSS:"]

/-- `/proc/meminfo` in the lab on page replacement. -/
def swapUsage : Listing := starts 256 (by decide) "    " ["SwapTotal", "SwapFree", "SwapCached"]

/-- `/proc/vmstat` in the lab on page replacement. -/
def faultCounters : Listing :=
  starts 256 (by decide) "    " ["pgfault", "pgmajfault", "pgpgout", "pswpout"]

/-- `/proc/<pid>/status` in the lab on protection. -/
def capabilities : Listing := starts 256 (by decide) "  " ["Cap"]

/-- `/proc/<pid>/status` in the exercises. -/
def exTaskStruct : Listing :=
  starts 256 (by decide) "  " ["Name", "Pid", "PPid", "Threads", "VmPeak", "VmSize", "VmRSS",
    "VmData", "VmStk", "VmExe", "VmPTE", "voluntary_ctxt_switches", "nonvoluntary_ctxt_switches"]

/-- `/proc/meminfo` in the lab on huge pages. -/
def demoHugepages : Listing := contains 256 (by decide) "  " ["HugePages", "Hugepagesize"]

/-- `/proc/<pid>/status` in the lab on context switches. -/
def demoVoluntaryStats : Listing := contains 256 (by decide) "  " ["ctxt_switches", "voluntary"]

/-- `/proc/meminfo` in the lab on page replacement. -/
def pageLists : Listing := contains 256 (by decide) "  " ["Active", "Inactive", "Unevictable"]

/-- `/proc/meminfo` in the exercises. -/
def exHugePages : Listing := contains 256 (by decide) "  " ["Huge", "huge", "AnonHuge"]

/-- `/proc/self/limits` -/
def lockedMemory : Listing := contains 256 (by decide) "  " ["Max locked memory"]

/-- `/proc/buddyinfo` -/
def demoBuddyAllocator : Listing := ⟨256, "  ", none, .none, by decide⟩

/-- `/proc/iomem` in the fourth lab. -/
def iomem : Listing := first 256 (by decide) "  " 30

/-- `/proc/ioports` -/
def demoIoports : Listing := first 256 (by decide) "  " 15

/-- `/proc/<pid>/sched` -/
def schedInfo : Listing := first 256 (by decide) "  " 15

/-- `/proc/1/cgroup` -/
def demoSystemdUnits : Listing := first 256 (by decide) "    " 5

/-- `/proc/mounts` -/
def mountInfo : Listing := first 256 (by decide) "  " 10

/-- The output of `cat /proc/fs/jbd2/*/info`. -/
def journalInfo : Listing := first 256 (by decide) "  " 15

/-- `/proc/<pid>/sched`, where `n` counts the lines that are not printed too. -/
def schedFields : Listing :=
  ⟨256, "    ", some (["se.vruntime", "nr_switches", "prio", "wait_sum", "exec_max",
    "sum_exec_runtime", "se.nr_migrations"].map .contains ++ [.starts "("]), .reads 20, by decide⟩

/-- The output of `dmesg`, where `shown` counts the lines printed. -/
def demoBootMemory : Listing :=
  ⟨512, "  ", some (["Memory:", "BIOS-e820:", "page tables", "kernel", "Zone"].map .contains),
    .prints 25, by decide⟩

/-- `/proc/slabinfo`, before the stream is rewound. -/
def slabHead : Listing := first 512 (by decide) "  " 3

def slabCaches : Listing :=
  ⟨512, "  ", some (["task_struct", "mm_struct", "inode_cache", "dentry"].map .contains),
    .breaks 6 (by decide), by decide⟩

/-- The line of `/proc/<pid>/status` that begins with the field. -/
def printStatusField (field : String) : Listing :=
  ⟨256, "  ", some [.starts field], .breaks 1 (by decide), by decide⟩

end Listing

/-- `slabinfo` is `none` where the file cannot be opened. -/
def demoSlabAllocator (slabinfo : Option (List Char)) : Option (List (List Char)) :=
  match slabinfo with
  | none => some ["  (need root: sudo cat /proc/slabinfo)\n".toList]
  | some text => do
      let head ← Listing.slabHead.printed text
      let caches ← Listing.slabCaches.printed text
      return head ++ ["  ...\n".toList] ++ caches

/-- Every such loop on every file: it prints the wanted lines where all lines fit its
buffer. Without a limit it does so exactly when the wanted lines fit and no line has
a later piece that begins with a key. -/
theorem listing_prints_wanted (f : Listing) {text : List Char}
    (hnul : ∀ l ∈ lines text, '\x00' ∉ l) :
    ((∀ l ∈ lines text, l.length ≤ f.size - 1) → f.printed text = some (f.wanted text)) ∧
      (f.limit = .none →
        (f.printed text = some (f.wanted text) ↔
          (∀ l ∈ lines text, f.shows l = true → l.length ≤ f.size - 1) ∧
            ∀ l ∈ lines text, ∀ k, 0 < k → (f.size - 1) * k < l.length →
              ¬ f.begins (piece (f.size - 1) k l))) :=
  ⟨f.printed_of_fits hnul, fun hlimit => Listing.printed_eq_iff hlimit hnul⟩

/-- A line whose first piece has 255 characters and whose second begins with a key. -/
def splitLine : List Char := List.replicate 255 'x' ++ "VmPeak: 8".toList

theorem listing_prints_wanted_vm_lines :
    Listing.demoMmStruct.printed "VmPeak: 8\nPid: 7\n".toList =
        some (Listing.demoMmStruct.wanted "VmPeak: 8\nPid: 7\n".toList) ∧
      Listing.demoMmStruct.printed (splitLine ++ ['\n']) ≠
        some (Listing.demoMmStruct.wanted (splitLine ++ ['\n'])) := by
  constructor
  · exact (listing_prints_wanted Listing.demoMmStruct (by decide)).1 (by decide)
  · have hkeys : ∀ c ∈ "VmPeak: 8".toList, c ≠ '\n' ∧ c ≠ '\x00' := by simp
    have hchars : ∀ c ∈ splitLine, c ≠ '\n' ∧ c ≠ '\x00' := by
      intro c hc
      rcases List.mem_append.mp hc with hx | hkey
      · rw [List.eq_of_mem_replicate hx]
        decide
      · exact hkeys c hkey
    have hlines : lines (splitLine ++ ['\n']) = [splitLine ++ ['\n']] :=
      lines_append_newline (fun h => (hchars _ h).1 rfl) []
    have hnul : ∀ l ∈ lines (splitLine ++ ['\n']), '\x00' ∉ l := by
      rw [hlines, List.forall_mem_singleton, List.mem_append, not_or]
      exact ⟨fun h => (hchars _ h).2 rfl, by decide⟩
    rw [Ne, (listing_prints_wanted Listing.demoMmStruct hnul).2 rfl, hlines]
    rintro ⟨-, hpieces⟩
    apply hpieces _ (List.mem_singleton_self _) 1 (by decide)
    · rw [splitLine, List.length_append, List.length_append, List.length_replicate]
      decide
    · refine ⟨"Vm", by decide, ?_⟩
      show hasPrefix "VmPeak: 8\n".toList "Vm"
      decide

end OsLabs.ProcFiles
