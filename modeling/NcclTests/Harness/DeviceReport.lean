import Mathlib
import NcclTests.Harness.Report
import NcclTests.Harness.SanitizeJson
import NcclTests.Lib.Scanf

/-!
# The devices in the report

Every process prints a line for each of its GPUs into a block of `MAX_LINE` bytes, the
root prints the gathered blocks and parses them for the JSON report. `parseRankInfo`
undoes the format of a line and returns where the line ends (`parseRankInfo_rankLine`),
but `writeDeviceReport` calls it once for a block and drops that offset, so a process
with several GPUs has only its first one recorded.
-/

namespace NcclTests.Harness

open Json Printf Scanf

/-! ## Printing a line -/

/-- `[%04x:%02x:%02x]` without the brackets. -/
def deviceHex (pciDomainID pciBusID pciDeviceID : Int) : CString :=
  (hexadecimal pciDomainID).leftpad 4 '0' ++ ':' :: (hexadecimal pciBusID).leftpad 2 '0' ++
    ':' :: (hexadecimal pciDeviceID).leftpad 2 '0'

/-- The format of a line, `device_hex` being the number of `deviceHex`. -/
def rankLine (r : RankInfo) : CString :=
  "#  Rank ".toList ++ ((decimal r.rank).leftpad 2 ' ' ++ (" Group ".toList ++
    ((decimal r.group).leftpad 2 ' ' ++ (" Pid ".toList ++ ((decimal r.pid).leftpad 6 ' ' ++
    (" on ".toList ++ (r.hostname.leftpad 10 ' ' ++ (" device ".toList ++
    ((decimal r.device).leftpad 2 ' ' ++ (" [".toList ++ (r.device_hex ++ ("] ".toList ++
    (r.devinfo ++ "\n".toList)))))))))))))

/-! ## Parsing a line -/

/-- What `sscanf` stores into: the record, and `end` once it has a value. -/
structure Parsed where
  rank : RankInfo
  end_ : Option Nat
  deriving DecidableEq

/-- The format of `parseRankInfo` up to the device name. -/
def rankInfoNumbers : List (Directive Parsed) :=
  plain "#  Rank ".toList ++ (.int (fun z p => { p with rank.rank := z }) ::
    (plain " Group ".toList ++ (.int (fun z p => { p with rank.group := z }) ::
    (plain " Pid ".toList ++ (.int (fun z p => { p with rank.pid := z }) ::
    (plain " on ".toList ++ (.word 1024 (fun text p => { p with rank.hostname := text }) ::
    (plain " device ".toList ++ (.int (fun z p => { p with rank.device := z }) ::
    (plain " [".toList ++ (.set 128 (· ≠ ']') (fun text p => { p with rank.device_hex := text }) ::
    plain "]".toList)))))))))))

/-- The rest of it, from the blank before the device name. -/
def devinfoFormat : List (Directive Parsed) :=
  .space :: .set 1024 (· ≠ '\n') (fun text p => { p with rank.devinfo := text }) ::
    .space :: .count (fun n p => { p with end_ := some n }) :: []

def rankInfoFormat : List (Directive Parsed) := rankInfoNumbers ++ devinfoFormat

/-- `rank` holds what it held before where nothing is stored. -/
def parseRankInfo (rank : RankInfo) (instring : CString) : Parsed :=
  (scan instring.length rankInfoFormat instring ⟨rank, none⟩).1

/-- A record whose line `parseRankInfo` can undo. -/
structure RankInfo.Printable (r : RankInfo) : Prop where
  hostname_ne_nil : r.hostname ≠ []
  hostname_visible : ∀ c ∈ r.hostname, isSpace c = false
  hostname_fits : r.hostname.length ≤ 1024
  device_hex_ne_nil : r.device_hex ≠ []
  device_hex_within : ∀ c ∈ r.device_hex, (c ≠ ']' : Bool) = true
  device_hex_fits : r.device_hex.length ≤ 128
  devinfo_starts : Starts r.devinfo
  devinfo_single : ∀ c ∈ r.devinfo, (c ≠ '\n' : Bool) = true
  devinfo_fits : r.devinfo.length ≤ 1024

theorem RankInfo.Printable.hostname_starts {r : RankInfo} (printable : r.Printable) :
    Starts r.hostname := by
  obtain ⟨c, text, same⟩ := List.exists_cons_of_ne_nil printable.hostname_ne_nil
  refine ⟨c, by rw [same]; rfl, printable.hostname_visible c ?_⟩
  rw [same]
  exact List.mem_cons_self

theorem scan_devinfo {r : RankInfo} (printable : r.Printable) (p : Parsed) (whole : Nat)
    {rest : CString} (next : Stops isSpace rest) :
    scan whole devinfoFormat ([' '] ++ (r.devinfo ++ ("\n".toList ++ rest))) p =
      (⟨{ p.rank with devinfo := r.devinfo }, some (whole - rest.length)⟩, some rest) := by
  obtain ⟨first, head, _⟩ := printable.devinfo_starts
  have nonempty : r.devinfo ≠ [] := by
    rintro empty
    rw [empty] at head
    cases head
  have skip : ([' '] ++ (r.devinfo ++ ("\n".toList ++ rest))).dropWhile isSpace =
      r.devinfo ++ ("\n".toList ++ rest) :=
    dropWhile_starts printable.devinfo_starts
  have line_end : ("\n".toList ++ rest).dropWhile isSpace = rest := by
    refine dropWhile_append (fun c inside => ?_) next
    obtain rfl : c = '\n' := List.mem_singleton.1 inside
    rfl
  rw [devinfoFormat, scan, Directive.read, skip]
  dsimp only
  rw [scan_cons (Directive.read_set _ nonempty printable.devinfo_single printable.devinfo_fits
    (.append rfl rfl rest)), scan, Directive.read, line_end]
  rfl

/-- Every directive reads back what the conversion at its place printed. -/
theorem scan_rankLine {r : RankInfo} (printable : r.Printable) (p : Parsed) (whole : Nat)
    {rest : CString} (next : Stops isSpace rest) :
    scan whole rankInfoFormat (rankLine r ++ rest) p =
      (⟨r, some (whole - rest.length)⟩, some rest) := by
  have blank : "] ".toList = "]".toList ++ [' '] := rfl
  unfold rankLine rankInfoFormat rankInfoNumbers
  simp only [List.append_assoc, List.cons_append]
  rw [scan_plain_of_blank ?_ (starts_decimal r.rank),
    scan_cons (Directive.read_int _ r.rank ?_),
    scan_plain_of_blank ?_ (starts_decimal r.group),
    scan_cons (Directive.read_int _ r.group ?_),
    scan_plain_of_blank ?_ (starts_decimal r.pid),
    scan_cons (Directive.read_int _ r.pid ?_),
    scan_plain_of_blank ?_ printable.hostname_starts,
    scan_cons (Directive.read_word _ printable.hostname_ne_nil printable.hostname_visible
      printable.hostname_fits ?_),
    scan_plain_of_blank ?_ (starts_decimal r.device),
    scan_cons (Directive.read_int _ r.device ?_),
    scan_plain_of_visible ?_,
    scan_cons (Directive.read_set _ printable.device_hex_ne_nil printable.device_hex_within
      printable.device_hex_fits ?_),
    blank, List.append_assoc, scan_plain_of_visible ?_, scan_devinfo printable _ _ next]
  -- the literal texts end as they should, and none continues the field before it
  all_goals first | rfl | exact .append rfl rfl _

/-- A line parses to its record, and `end` is where it ends. -/
theorem parseRankInfo_rankLine {r : RankInfo} (printable : r.Printable) (old : RankInfo)
    {rest : CString} (next : Stops isSpace rest) :
    parseRankInfo old (rankLine r ++ rest) = ⟨r, some (rankLine r).length⟩ := by
  rw [parseRankInfo, scan_rankLine printable _ _ next, List.length_append, Nat.add_sub_cancel_right]

/-! ## The report of all processes -/

/-- A string in a buffer of `size` bytes. -/
structure CBuffer (size : Nat) where
  text : CString
  nul_notMem : '\x00' ∉ text
  fits : text.length < size

/-- What is printed of `cudaDeviceProp`. -/
structure Gpu where
  pciDomainID : Int
  pciBusID : Int
  pciDeviceID : Int
  name : CBuffer 256

/-- The options, the same for all processes, and what each process finds out. `gpu` is
`cudaGetDeviceProperties`; `gpu0` is -1 where `NCCL_TESTS_DEVICE` is not set. -/
structure DeviceRun where
  nThreads : Nat
  nGpus : Nat
  totalProcs : Nat
  localRank : Nat → Nat
  color : Nat → Int
  pid : Nat → Int
  hostname : Nat → CBuffer 1024
  gpu0 : Nat → Int
  gpu : Nat → Int → Gpu

def maxLine : Nat := 2048

/-- `line` and `len`. -/
structure LineBuffer where
  line : CString
  len : Nat
  deriving DecidableEq

/-- `snprintf` behind what the buffer holds, where there is room. -/
def LineBuffer.snprintf (b : LineBuffer) (r : RankInfo) : LineBuffer :=
  if b.len < maxLine then
    ⟨b.line ++ (rankLine r).take (maxLine - b.len - 1), b.len + (rankLine r).length⟩
  else b

namespace DeviceRun

variable (d : DeviceRun)

def cudaDev (proc i : Nat) : Int :=
  (if d.gpu0 proc ≠ -1 then d.gpu0 proc else d.localRank proc * d.nThreads * d.nGpus) + i

/-- What process `proc` prints of its `i`-th GPU. -/
def rankInfo (proc i : Nat) : RankInfo where
  rank := proc * d.nThreads * d.nGpus + i
  group := d.color proc
  pid := d.pid proc
  hostname := (d.hostname proc).text
  device := d.cudaDev proc i
  device_hex :=
    let prop := d.gpu proc (d.cudaDev proc i)
    deviceHex prop.pciDomainID prop.pciBusID prop.pciDeviceID
  devinfo := (d.gpu proc (d.cudaDev proc i)).name.text

/-- The lines of a process. -/
def procLines (proc : Nat) : List RankInfo :=
  (List.range (d.nThreads * d.nGpus)).map (d.rankInfo proc)

/-- The string a process has in `line`. -/
def line (proc : Nat) : CString :=
  let b := (d.procLines proc).foldl LineBuffer.snprintf ⟨[], 0⟩
  if b.len ≥ maxLine then b.line.take (maxLine - 5) ++ "...\n".toList else b.line

/-- The bytes of `line`: what follows the string has never been written. -/
def lineBytes (unwritten : Nat → Char) (text : CString) : List Char :=
  text ++ '\x00' :: (List.range (maxLine - text.length - 1)).map unwritten

/-- `lines`, gathered in rank order. -/
def gathered (unwritten : Nat → Nat → Char) : List Char :=
  (List.range d.totalProcs).flatMap fun p => lineBytes (unwritten p) (d.line p)

/-- The string that starts at an offset. -/
def stringAt (bytes : List Char) (offset : Nat) : CString :=
  (bytes.drop offset).takeWhile (· ≠ '\x00')

/-- What the root prints. Without MPI it prints its own line, as for one process. -/
def printed (unwritten : Nat → Nat → Char) : CString :=
  (List.range d.totalProcs).flatMap fun p => stringAt (d.gathered unwritten) (maxLine * p)

/-- The records it writes to JSON; `rankinfo` is not initialised. -/
def devices (unwritten : Nat → Nat → Char) (rankinfo : Nat → RankInfo) : List RankInfo :=
  (List.range d.totalProcs).map fun p =>
    (parseRankInfo (rankinfo p) (stringAt (d.gathered unwritten) (maxLine * p))).rank

/-- The records of all lines, in rank order. -/
def records : List RankInfo := (List.range d.totalProcs).flatMap d.procLines

/-- The lines of each process fit in its block. -/
def Fits : Prop :=
  ∀ p < d.totalProcs, ((d.procLines p).flatMap rankLine).length < maxLine

end DeviceRun

/-! ### The blocks -/

/-- Lines that fit are put one after another. -/
theorem LineBuffer.foldl_snprintf {b : LineBuffer} {lines : List RankInfo}
    (fits : b.len + (lines.flatMap rankLine).length < maxLine) :
    lines.foldl snprintf b =
      ⟨b.line ++ lines.flatMap rankLine, b.len + (lines.flatMap rankLine).length⟩ := by
  induction lines generalizing b with
  | nil => simp
  | cons r lines ih =>
    rw [List.flatMap_cons, List.length_append] at fits
    have room : b.snprintf r = ⟨b.line ++ rankLine r, b.len + (rankLine r).length⟩ := by
      rw [snprintf, if_pos (by omega), List.take_of_length_le (by omega)]
    have later : (b.snprintf r).len + (lines.flatMap rankLine).length < maxLine := by
      rw [room]
      dsimp only
      omega
    rw [List.foldl_cons, ih later, room]
    simp only [List.flatMap_cons, List.append_assoc, List.length_append, Nat.add_assoc]

/-- Blocks of one size are found at the multiples of it. -/
theorem drop_flatMap_range {α : Type} {f : Nat → List α} {size n : Nat}
    (sizes : ∀ p < n, (f p).length = size) {p : Nat} (inside : p < n) :
    ∃ more, ((List.range n).flatMap f).drop (size * p) = f p ++ more := by
  obtain ⟨k, rfl⟩ := Nat.exists_eq_add_of_lt inside
  have split : List.range (p + k + 1) =
      List.range p ++ p :: (List.range k).map fun i => p + 1 + i := by
    rw [show p + k + 1 = p + (1 + k) by omega, List.range_add, List.range_add]
    simp [List.range_succ, Function.comp_def, Nat.add_assoc]
  have before : ((List.range p).flatMap f).length = size * p := by
    rw [List.length_flatMap, List.map_congr_left (fun q low => sizes q
      (by have := List.mem_range.1 low; omega)), List.map_const', List.sum_replicate,
      List.length_range, smul_eq_mul, mul_comm]
  refine ⟨((List.range k).map fun i => p + 1 + i).flatMap f, ?_⟩
  rw [split, List.flatMap_append, List.flatMap_cons, ← before, List.drop_left]

/-! ### The characters of a line -/

theorem nul_notMem_decimal (z : Int) (n : Nat) : '\x00' ∉ (decimal z).leftpad n ' ' := by
  intro inside
  rcases mem_leftpad inside with blank | inside
  · cases blank
  · rcases mem_decimal inside with sign | ⟨k, low, digit⟩
    · cases sign
    · exact absurd digit ((by decide : ∀ k < 10, '\x00' ≠ Nat.digitChar k) k low)

/-- A line ends where its block has the NUL. -/
theorem nul_notMem_rankLine {r : RankInfo} (hostname : '\x00' ∉ r.hostname)
    (device_hex : '\x00' ∉ r.device_hex) (devinfo : '\x00' ∉ r.devinfo) :
    '\x00' ∉ rankLine r := by
  have host : '\x00' ∉ r.hostname.leftpad 10 ' ' := by
    intro inside
    rcases mem_leftpad inside with blank | inside
    · cases blank
    · exact hostname inside
  unfold rankLine
  simp only [List.mem_append, not_or]
  refine ⟨?_, nul_notMem_decimal _ _, ?_, nul_notMem_decimal _ _, ?_, nul_notMem_decimal _ _, ?_,
    host, ?_, nul_notMem_decimal _ _, ?_, device_hex, ?_, devinfo, ?_⟩ <;> simp

/-- The characters of a device number. -/
theorem mem_deviceHex {domain bus device : Int} {c : Char}
    (inside : c ∈ deviceHex domain bus device) : c = ':' ∨ ∃ k < 16, c = Nat.digitChar k := by
  have part (z : Int) (n : Nat) (inside : c ∈ (hexadecimal z).leftpad n '0') :
      ∃ k < 16, c = Nat.digitChar k := by
    rcases mem_leftpad inside with zero | inside
    · exact ⟨0, by norm_num, zero⟩
    · exact mem_digits (by norm_num) inside
  simp only [deviceHex, List.mem_append, List.mem_cons, or_assoc] at inside
  rcases inside with first | colon | second | colon | third
  · exact .inr (part _ _ first)
  · exact .inl colon
  · exact .inr (part _ _ second)
  · exact .inl colon
  · exact .inr (part _ _ third)

theorem length_deviceHex_le (domain bus device : Int) :
    (deviceHex domain bus device).length ≤ 26 := by
  have part (z : Int) (n : Nat) (narrow : n ≤ 8) : ((hexadecimal z).leftpad n '0').length ≤ 8 := by
    rw [List.length_leftpad]
    exact max_le narrow (length_hexadecimal_le z)
  have domain_part := part domain 4 (by norm_num)
  have bus_part := part bus 2 (by norm_num)
  have device_part := part device 2 (by norm_num)
  simp only [deviceHex, List.length_append, List.length_cons]
  omega

namespace DeviceRun

variable {d : DeviceRun}

theorem nul_notMem_line (proc i : Nat) : '\x00' ∉ rankLine (d.rankInfo proc i) := by
  refine nul_notMem_rankLine (d.hostname proc).nul_notMem (fun inside => ?_) (CBuffer.nul_notMem _)
  rcases mem_deviceHex inside with colon | ⟨k, low, digit⟩
  · cases colon
  · exact absurd digit ((by decide : ∀ k < 16, '\x00' ≠ Nat.digitChar k) k low)

theorem line_eq {proc : Nat} (fits : ((d.procLines proc).flatMap rankLine).length < maxLine) :
    d.line proc = (d.procLines proc).flatMap rankLine := by
  have filled : (d.procLines proc).foldl LineBuffer.snprintf ⟨[], 0⟩ = _ :=
    LineBuffer.foldl_snprintf (by simpa using fits)
  simp only [List.nil_append, Nat.zero_add] at filled
  rw [line, filled]
  exact if_neg (not_le.2 fits)

/-- The root finds in every block the lines of its process. -/
theorem stringAt_gathered {unwritten : Nat → Nat → Char} (fits : d.Fits) {p : Nat}
    (inside : p < d.totalProcs) :
    stringAt (d.gathered unwritten) (maxLine * p) = (d.procLines p).flatMap rankLine := by
  have sizes : ∀ q < d.totalProcs, (lineBytes (unwritten q) (d.line q)).length = maxLine := by
    intro q low
    have short := fits q low
    rw [← line_eq short] at short
    simp only [lineBytes, List.length_append, List.length_cons, List.length_map,
      List.length_range]
    omega
  obtain ⟨more, dropped⟩ := drop_flatMap_range sizes inside
  have text : ∀ c ∈ (d.procLines p).flatMap rankLine, (c ≠ '\x00' : Bool) = true := by
    intro c member
    obtain ⟨r, line, char⟩ := List.mem_flatMap.1 member
    obtain ⟨i, _, rfl⟩ := List.mem_map.1 line
    refine decide_eq_true ?_
    rintro rfl
    exact nul_notMem_line p i char
  rw [stringAt, gathered, dropped, line_eq (fits p inside), lineBytes, List.append_assoc]
  refine takeWhile_append text ?_
  rintro c head
  obtain rfl := Option.some.inj head
  rfl

/-- The root prints all lines. -/
theorem printed_eq {unwritten : Nat → Nat → Char} (fits : d.Fits) :
    d.printed unwritten = d.records.flatMap rankLine := by
  rw [printed, records, List.flatMap_assoc]
  refine List.flatMap_congr fun p member => ?_
  exact stringAt_gathered fits (List.mem_range.1 member)

/-! ### What is recorded -/

/-- The host names are words and the device names single lines. -/
structure Names (d : DeviceRun) : Prop where
  hostname_visible : ∀ p < d.totalProcs, ∀ c ∈ (d.hostname p).text, isSpace c = false
  devinfo_single : ∀ p < d.totalProcs, ∀ dev, ∀ c ∈ (d.gpu p dev).name.text, c ≠ '\n'

/-- The names fit in the `tmp` of `jsonStr`, were all characters escaped. -/
theorem names_short {r : RankInfo} (mem : r ∈ d.records) :
    r.hostname.length < 1024 ∧ r.devinfo.length < 1024 := by
  simp only [records, procLines, List.mem_flatMap, List.mem_map] at mem
  obtain ⟨p, -, i, -, rfl⟩ := mem
  exact ⟨(d.hostname p).fits, (d.gpu p (d.cudaDev p i)).name.fits.trans (by norm_num)⟩

theorem printable (names : d.Names) {p : Nat} (inside : p < d.totalProcs) (i : Nat)
    (hostname : (d.hostname p).text ≠ [])
    (devinfo : Starts (d.gpu p (d.cudaDev p i)).name.text) : (d.rankInfo p i).Printable where
  hostname_ne_nil := hostname
  hostname_visible := names.hostname_visible p inside
  hostname_fits := (d.hostname p).fits.le
  device_hex_ne_nil := by simp [rankInfo, deviceHex]
  device_hex_within := by
    intro c member
    refine decide_eq_true ?_
    rintro rfl
    rcases mem_deviceHex member with colon | ⟨k, low, digit⟩
    · cases colon
    · exact absurd digit ((by decide : ∀ k < 16, ']' ≠ Nat.digitChar k) k low)
  device_hex_fits := (length_deviceHex_le _ _ _).trans (by norm_num)
  devinfo_starts := devinfo
  devinfo_single c member := decide_eq_true (names.devinfo_single p inside _ c member)
  devinfo_fits := (d.gpu p (d.cudaDev p i)).name.fits.le.trans (by norm_num)

/-- A property of the host name that every stored word has is kept. -/
theorem keeps_rankInfoNumbers {P : Parsed → Prop} {ds : List (Directive Parsed)}
    (rank : ∀ z p, P p → P { p with rank.rank := z })
    (group : ∀ z p, P p → P { p with rank.group := z })
    (pid : ∀ z p, P p → P { p with rank.pid := z })
    (hostname : ∀ text p, text ≠ [] → P p → P { p with rank.hostname := text })
    (device : ∀ z p, P p → P { p with rank.device := z })
    (device_hex : ∀ text p, P p → P { p with rank.device_hex := text }) (rest : Keeps P ds) :
    Keeps P (rankInfoNumbers ++ ds) := by
  unfold rankInfoNumbers
  simp only [List.append_assoc, List.cons_append]
  exact .plain _ (.int rank (.plain _ (.int group (.plain _ (.int pid (.plain _
    (.word hostname (.plain _ (.int device (.plain _ (.set device_hex (.plain _ rest))))))))))))

/-- `sscanf` leaves no empty host name. -/
theorem hostname_ne_nil_of_parse {old : RankInfo} (nonempty : old.hostname ≠ [])
    (text : CString) : (parseRankInfo old text).rank.hostname ≠ [] := by
  have keeps : Keeps (fun p : Parsed => p.rank.hostname ≠ []) rankInfoFormat := by
    refine keeps_rankInfoNumbers ?_ ?_ ?_ ?_ ?_ ?_ (.space (.set ?_ (.space (.count ?_ .nil))))
    · exact fun _ _ kept => kept
    · exact fun _ _ kept => kept
    · exact fun _ _ kept => kept
    · exact fun _ _ stored _ => stored
    · exact fun _ _ kept => kept
    · exact fun _ _ kept => kept
    · exact fun _ _ kept => kept
    · exact fun _ _ kept => kept
  exact keeps.scan text nonempty

/-- The device name it stores does not start with a blank. -/
theorem devinfo_starts_of_parse {old : RankInfo} (starts : Starts old.devinfo)
    (text : CString) : Starts (parseRankInfo old text).rank.devinfo := by
  have numbers : Keeps (fun p : Parsed => Starts p.rank.devinfo) rankInfoNumbers := by
    rw [← List.append_nil rankInfoNumbers]
    refine keeps_rankInfoNumbers ?_ ?_ ?_ ?_ ?_ ?_ .nil
    · exact fun _ _ kept => kept
    · exact fun _ _ kept => kept
    · exact fun _ _ kept => kept
    · exact fun _ _ _ kept => kept
    · exact fun _ _ kept => kept
    · exact fun _ _ kept => kept
  have first : Starts (scan text.length rankInfoNumbers text ⟨old, none⟩).1.rank.devinfo :=
    numbers.scan text starts
  rw [parseRankInfo, rankInfoFormat, scan_append]
  split
  · next p rest reached =>
    rw [reached] at first
    refine Keeps.scan_space_set (P := fun p : Parsed => Starts p.rank.devinfo) ?_
      (.space (.count ?_ .nil)) rest first
    · exact fun _ _ stored _ => stored
    · exact fun _ _ kept => kept
  · next p reached =>
    rw [reached] at first
    exact first

theorem procLines_of_one (one : d.nThreads * d.nGpus = 1) (p : Nat) :
    d.procLines p = [d.rankInfo p 0] := by
  rw [procLines, one]
  rfl

theorem records_of_one (one : d.nThreads * d.nGpus = 1) :
    d.records = (List.range d.totalProcs).map (d.rankInfo · 0) := by
  rw [records, List.flatMap_congr fun p _ => procLines_of_one one p, List.map_eq_flatMap]

/-- With one GPU for each process, the record of a process is its line's. -/
theorem devices_eq {unwritten : Nat → Nat → Char} {rankinfo : Nat → RankInfo} (fits : d.Fits)
    (one : d.nThreads * d.nGpus = 1)
    (printable : ∀ p < d.totalProcs, (d.rankInfo p 0).Printable) :
    d.devices unwritten rankinfo = d.records := by
  rw [devices, records_of_one one]
  refine List.map_congr_left fun p member => ?_
  have inside := List.mem_range.1 member
  have ends : Stops isSpace ([] : CString) := fun _ head => nomatch head
  rw [stringAt_gathered fits inside, procLines_of_one one, List.flatMap_singleton,
    ← List.append_nil (rankLine _), parseRankInfo_rankLine (printable p inside) _ ends]

/-- The number of records is that of the processes, not that of the lines. -/
theorem one_of_recorded (procs : 1 ≤ d.totalProcs) {unwritten : Nat → Nat → Char}
    {rankinfo : Nat → RankInfo} (recorded : d.devices unwritten rankinfo = d.records) :
    d.nThreads * d.nGpus = 1 := by
  have lengths := congrArg List.length recorded
  simp only [devices, records, procLines, List.length_map, List.length_range,
    List.length_flatMap, List.map_const', List.sum_replicate, smul_eq_mul] at lengths
  exact Nat.eq_of_mul_eq_mul_left procs (by omega)

end DeviceRun

/-- What uninitialised memory may hold. -/
def visibleNames : RankInfo := ⟨0, 0, 0, ['x'], 0, [], ['x']⟩

/-- Processes of one thread on one node. -/
def oneNode (nGpus totalProcs : Nat) : DeviceRun where
  nThreads := 1
  nGpus := nGpus
  totalProcs := totalProcs
  localRank := id
  color _ := 0
  pid p := 4000 + p
  hostname _ := ⟨"node".toList, by decide, by decide⟩
  gpu0 _ := -1
  gpu _ dev := ⟨0, dev, 0, ⟨"NVIDIA H100".toList, by decide, by decide⟩⟩

theorem oneNode_names (nGpus totalProcs : Nat) : (oneNode nGpus totalProcs).Names where
  hostname_visible _ _ := by simp [oneNode, isSpace]
  devinfo_single _ _ _ := by simp [oneNode]

end NcclTests.Harness
