import Mountin.Basic.Words
import Mountin.Disk.Fields
import Mountin.Partition.Windows

set_option autoImplicit false

/-! # Plan 9 partition tables

`plan9.rs`: the second sector of the disk is text, up to its first NUL, with a line for each
partition. `plan9_iff` gives the tables that are accepted by a grammar of lines, words and numbers.
-/

namespace Mountin.Plan9

open Partition (window numbered)

def SECTOR_SIZE : Nat := 512
def TABLE_OFFSET : Nat := SECTOR_SIZE
def MAX_PARTITIONS : Nat := 32

/-- A text, as its characters. -/
abbrev Text := List Char

/-! ## Texts -/

/-- `str::from_utf8`. -/
def fromUtf8 (b : Bytes) : Option Text := b.toByteArray.utf8Decode?.map Array.toList

/-- `char::is_whitespace`: the characters with the property White_Space. -/
def isWhitespace (c : Char) : Bool :=
  (9 ≤ c.toNat && c.toNat ≤ 13) || c.toNat == 0x20 || c.toNat == 0x85 || c.toNat == 0xa0 ||
    c.toNat == 0x1680 || (0x2000 ≤ c.toNat && c.toNat ≤ 0x200a) || c.toNat == 0x2028 ||
    c.toNat == 0x2029 || c.toNat == 0x202f || c.toNat == 0x205f || c.toNat == 0x3000

/-- `str::split_inclusive` at line feeds. -/
def splitInclusive : Text → List Text
  | [] => []
  | c :: rest =>
      if c = '\n' then [c] :: splitInclusive rest
      else match splitInclusive rest with
        | [] => [[c]]
        | line :: lines => (c :: line) :: lines

/-- A line without `"\n"` or `"\r\n"` at its end. -/
def stripEnd (line : Text) : Text :=
  if line.getLast? = some '\n' then
    if line.dropLast.getLast? = some '\r' then line.dropLast.dropLast else line.dropLast
  else line

/-- `str::lines`. -/
def lines (text : Text) : List Text := (splitInclusive text).map stripEnd

/-- `str::trim`. -/
def trim (line : Text) : Text :=
  ((line.dropWhile isWhitespace).reverse.dropWhile isWhitespace).reverse

/-- `str::split_whitespace`. -/
def fieldsOf (line : Text) : List Text := line.words isWhitespace

/-- A decimal digit. -/
def isDigit (c : Char) : Bool := 48 ≤ c.toNat && c.toNat ≤ 57

/-- The loop of `u64::from_str` over the digits. -/
def parseDigits : Nat → Text → Option Nat
  | acc, [] => some acc
  | acc, c :: rest =>
      if isDigit c then
        if acc * 10 + (c.toNat - 48) < 2 ^ 64 then parseDigits (acc * 10 + (c.toNat - 48)) rest
        else none
      else none

/-- A number without the plus sign that `u64::from_str` takes. -/
def stripPlus : Text → Text
  | '+' :: rest => rest
  | value => value

/-- `u64::from_str`. -/
def parseU64 (value : Text) : Option Nat :=
  if stripPlus value = [] then none else parseDigits 0 (stripPlus value)

/-! ## The table -/

/-- `parse_sector`. -/
def parseSector (value : Text) : Except IoError Nat :=
  match parseU64 value with
  | some n => .ok n
  | none => .error (.invalidData "invalid Plan 9 partition sector")

/-- The word at the beginning of a line. -/
def part : Text := ['p', 'a', 'r', 't']

/-- The window of the sectors from one to another one. -/
def extentWindow (e : Nat × Nat) : Nat × Nat :=
  (e.1 * SECTOR_SIZE, e.2 * SECTOR_SIZE - e.1 * SECTOR_SIZE)

/-- The body of the loop over the lines. -/
def addLine (size : Option Nat) (children : List Child) (line : Text) :
    Except IoError (List Child) := do
  require (children.length ≠ MAX_PARTITIONS) (.invalidData "too many Plan 9 partitions")
  match fieldsOf line with
  | [first, _, start, stop] =>
      require (first = part) (.invalidData "invalid Plan 9 partition entry")
      let startSector ← parseSector start
      let endSector ← parseSector stop
      require (startSector < endSector) (.invalidData "invalid Plan 9 partition extent")
      let start ← checked (startSector * SECTOR_SIZE) (.invalidData "Plan 9 partition offset overflow")
      let stop ← checked (endSector * SECTOR_SIZE) (.invalidData "Plan 9 partition end overflow")
      require (∀ n ∈ size, stop ≤ n) (.invalidData "Plan 9 partition extends past image")
      return children ++ [window children.length start (stop - start)]
  | _ => .error (.invalidData "invalid Plan 9 partition entry")

/-- `Plan9Container::children`. -/
def children : Container := fun reader => do
  let table ← reader.readAt TABLE_OFFSET SECTOR_SIZE
  require (table.length = SECTOR_SIZE) (.unexpectedEof "short Plan 9 partition table")
  match fromUtf8 (table.takeWhile (· ≠ 0)) with
  | none => .error (.invalidData "Plan 9 partition table is not ASCII")
  | some text =>
      let children ← ((lines text).filter fun line => trim line ≠ []).foldlM (addLine reader.size) []
      require (children ≠ []) (.invalidData "empty Plan 9 partition table")
      return children

/-! ## The grammar -/

/-- The number that digits denote. -/
def valueOf (digits : Text) : Nat := digits.foldl (fun n c => n * 10 + (c.toNat - 48)) 0

/-- A decimal number. -/
structure Decimal (value : Text) (n : Nat) : Prop where
  ne_nil : value ≠ []
  digits : ∀ c ∈ value, isDigit c = true
  value : valueOf value = n

/-- A decimal number that may have a plus sign. -/
def SignedDecimal (value : Text) (n : Nat) : Prop :=
  Decimal value n ∨ ∃ digits, value = '+' :: digits ∧ Decimal digits n

/-- Whitespace. -/
def Blank (w : Text) : Prop := ∀ c ∈ w, isWhitespace c = true

instance (w : Text) : Decidable (Blank w) :=
  List.decidableBAll (fun c => isWhitespace c = true) w

/-- A line `part NAME START END`, with blanks around the words. -/
def PartLine (number : Text → Nat → Prop) (line : Text) (start stop : Nat) : Prop :=
  ∃ w₀ w₁ w₂ w₃ w₄ name first last : Text,
    line = w₀ ++ (part ++ (w₁ ++ (name ++ (w₂ ++ (first ++ (w₃ ++ (last ++ w₄))))))) ∧
    (Blank w₀ ∧ Blank w₁ ∧ Blank w₂ ∧ Blank w₃ ∧ Blank w₄) ∧ (w₁ ≠ [] ∧ w₂ ≠ [] ∧ w₃ ≠ []) ∧
    (name ≠ [] ∧ ∀ c ∈ name, isWhitespace c = false) ∧ number first start ∧ number last stop

/-- A table with the extents of its partitions. -/
structure Accepts (number : Text → Nat → Prop) (table : Bytes) (size : Nat)
    (extents : List (Nat × Nat)) : Prop where
  /-- The text before the first NUL is UTF-8, and each line with more than blanks is an entry. -/
  text : ∃ text : Text, table.takeWhile (· ≠ 0) = text.flatMap String.utf8EncodeChar ∧
    List.Forall₂ (fun line e => PartLine number line e.1 e.2)
      ((lines text).filter fun line => ¬Blank line) extents
  count : 1 ≤ extents.length ∧ extents.length ≤ MAX_PARTITIONS
  extent : ∀ e ∈ extents, e.1 < e.2 ∧ e.2 * SECTOR_SIZE ≤ size

/-! ## Texts and their encoding -/

theorem fromUtf8_eq_some {b : Bytes} {text : Text} :
    fromUtf8 b = some text ↔ b = text.flatMap String.utf8EncodeChar := by
  have hinj : ∀ {a b : Bytes}, a.toByteArray = b.toByteArray → a = b := by
    intro a b h
    simpa using congrArg (fun x : ByteArray => x.data.toList) h
  constructor
  · intro h
    obtain ⟨chars, hchars, rfl⟩ := Option.map_eq_some_iff.mp h
    obtain ⟨text, htext⟩ := ByteArray.isSome_utf8Decode?_iff.mp
      (Option.isSome_iff_exists.mpr ⟨chars, hchars⟩)
    rw [htext, List.utf8Decode?_utf8Encode] at hchars
    obtain rfl := Option.some.inj hchars
    exact hinj htext
  · rintro rfl
    have hdecode := List.utf8Decode?_utf8Encode (l := text)
    rw [List.utf8Encode] at hdecode
    rw [fromUtf8, hdecode]
    rfl

theorem trim_eq_nil_iff {line : Text} : trim line = [] ↔ Blank line := by
  rw [trim, List.reverse_eq_nil_iff, List.dropWhile_eq_nil_iff, Blank]
  constructor
  · intro h c hc
    rw [← List.takeWhile_append_dropWhile (p := isWhitespace) (l := line)] at hc
    rcases List.mem_append.mp hc with htake | hdrop
    · exact List.mem_takeWhile_imp htake
    · exact h c (List.mem_reverse.mpr hdrop)
  · intro h c hc
    exact h c ((List.dropWhile_suffix _).subset (List.mem_reverse.mp hc))

/-- Digits and the plus sign are not whitespace. -/
theorem isWhitespace_of_digit {c : Char} (h : isDigit c = true) : isWhitespace c = false := by
  simp only [isDigit, Bool.and_eq_true, decide_eq_true_eq] at h
  simp only [isWhitespace, Bool.or_eq_false_iff, Bool.and_eq_false_iff, decide_eq_false_iff_not,
    beq_eq_false_iff_ne, ne_eq]
  omega

theorem SignedDecimal.word {value : Text} {n : Nat} (h : SignedDecimal value n) :
    value ≠ [] ∧ ∀ c ∈ value, isWhitespace c = false := by
  rcases h with h | ⟨digits, rfl, h⟩
  · exact ⟨h.ne_nil, fun c hc => isWhitespace_of_digit (h.digits c hc)⟩
  · refine ⟨List.cons_ne_nil _ _, List.forall_mem_cons.mpr ⟨by decide, fun c hc => ?_⟩⟩
    exact isWhitespace_of_digit (h.digits c hc)

/-! ## Numbers -/

theorem le_foldl_digits (digits : Text) (acc : Nat) :
    acc ≤ digits.foldl (fun n c => n * 10 + (c.toNat - 48)) acc := by
  induction digits generalizing acc with
  | nil => exact Nat.le_refl _
  | cons c rest ih =>
      rw [List.foldl_cons]
      exact Nat.le_trans (by omega) (ih (acc * 10 + (c.toNat - 48)))

theorem parseDigits_eq_some {digits : Text} {acc n : Nat} (hacc : acc < 2 ^ 64) :
    parseDigits acc digits = some n ↔ (∀ c ∈ digits, isDigit c = true) ∧
      digits.foldl (fun n c => n * 10 + (c.toNat - 48)) acc = n ∧ n < 2 ^ 64 := by
  induction digits generalizing acc with
  | nil =>
      rw [parseDigits, Option.some.injEq, List.foldl_nil]
      constructor
      · rintro rfl
        exact ⟨fun c hc => absurd hc List.not_mem_nil, rfl, hacc⟩
      · exact fun h => h.2.1
  | cons c rest ih =>
      rw [parseDigits, List.forall_mem_cons, List.foldl_cons]
      have hle := le_foldl_digits rest (acc * 10 + (c.toNat - 48))
      split_ifs with hdigit hroom
      · rw [ih hroom, and_iff_right hdigit]
      · refine ⟨fun h => (nomatch h), fun h => absurd ?_ hroom⟩
        omega
      · exact ⟨fun h => (nomatch h), fun h => absurd h.1.1 hdigit⟩

/-- What `u64::from_str` accepts. -/
theorem parseU64_eq_some {value : Text} {n : Nat} :
    parseU64 value = some n ↔ SignedDecimal value n ∧ n < 2 ^ 64 := by
  have hzero : (0 : Nat) < 2 ^ 64 := by decide
  have hnumber : ∀ digits : Text, (if digits = [] then none else parseDigits 0 digits) = some n ↔
      Decimal digits n ∧ n < 2 ^ 64 := by
    intro digits
    split_ifs with hempty
    · exact ⟨fun h => (nomatch h), fun h => absurd hempty h.1.ne_nil⟩
    · rw [parseDigits_eq_some hzero]
      exact ⟨fun h => ⟨⟨hempty, h.1, h.2.1⟩, h.2.2⟩, fun h => ⟨h.1.digits, h.1.value, h.2⟩⟩
  have hplus : ∀ rest : Text, ¬Decimal ('+' :: rest) n := fun rest h =>
    absurd (h.digits '+' List.mem_cons_self) (by decide)
  rw [parseU64, hnumber]
  refine and_congr_left fun _ => ?_
  by_cases hsign : ∃ rest, value = '+' :: rest
  · obtain ⟨rest, rfl⟩ := hsign
    refine ⟨fun h => .inr ⟨rest, rfl, h⟩, ?_⟩
    rintro (h | ⟨digits, hcons, h⟩)
    · exact absurd h (hplus rest)
    · rwa [stripPlus, (List.cons.inj hcons).2]
  · have hsame : stripPlus value = value := by
      unfold stripPlus
      split
      · exact absurd ⟨_, rfl⟩ hsign
      · rfl
    rw [hsame]
    refine ⟨.inl, ?_⟩
    rintro (h | ⟨digits, rfl, h⟩)
    · exact h
    · exact absurd ⟨digits, rfl⟩ hsign

theorem parseSector_eq_ok {value : Text} {n : Nat} :
    parseSector value = .ok n ↔ SignedDecimal value n ∧ n < 2 ^ 64 := by
  rw [← parseU64_eq_some, parseSector]
  cases parseU64 value <;> simp

/-! ## Lines -/

/-- The grammar of a line by its words. -/
theorem partLine_iff {number : Text → Nat → Prop} {line : Text} {start stop : Nat}
    (hword : ∀ value n, number value n → value ≠ [] ∧ ∀ c ∈ value, isWhitespace c = false) :
    PartLine number line start stop ↔ ∃ name first last, fieldsOf line = [part, name, first, last] ∧
      number first start ∧ number last stop := by
  have hpart : part ≠ [] ∧ ∀ c ∈ part, isWhitespace c = false := by
    refine ⟨List.cons_ne_nil _ _, ?_⟩
    simp only [part, List.forall_mem_cons]
    exact ⟨by decide, by decide, by decide, by decide, fun c hc => absurd hc List.not_mem_nil⟩
  -- behind a word there is a blank, or nothing
  have hhead : ∀ {w rest : Text}, Blank w → w ≠ [] → ∀ c ∈ (w ++ rest).head?, isWhitespace c = true := by
    intro w rest hw hne c hc
    cases w with
    | nil => exact absurd rfl hne
    | cons d w =>
        obtain rfl := Option.some.inj hc
        exact hw _ List.mem_cons_self
  constructor
  · rintro ⟨w₀, w₁, w₂, w₃, w₄, name, first, last, rfl, ⟨h₀, h₁, h₂, h₃, h₄⟩, ⟨hn₁, hn₂, hn₃⟩,
      hname, hfirst, hlast⟩
    refine ⟨name, first, last, ?_, hfirst, hlast⟩
    have hend : ∀ c ∈ w₄.head?, isWhitespace c = true := fun c hc => h₄ c (List.mem_of_mem_head? hc)
    rw [fieldsOf, List.words_append_seps h₀, List.words_word hpart.1 hpart.2 (hhead h₁ hn₁),
      List.words_append_seps h₁, List.words_word hname.1 hname.2 (hhead h₂ hn₂),
      List.words_append_seps h₂, List.words_word (hword _ _ hfirst).1 (hword _ _ hfirst).2
        (hhead h₃ hn₃), List.words_append_seps h₃, List.words_word (hword _ _ hlast).1
        (hword _ _ hlast).2 hend, List.words_eq_nil_iff.mpr h₄]
  · rintro ⟨name, first, last, hfields, hfirst, hlast⟩
    obtain ⟨w₀, r₁, rfl, h₀, -, -, hr₁, hfields⟩ := List.words_eq_cons_iff.mp hfields
    obtain ⟨w₁, r₂, rfl, h₁, hne, hname, hr₂, hfields⟩ := List.words_eq_cons_iff.mp hfields
    obtain ⟨w₂, r₃, rfl, h₂, hne', hfirst', hr₃, hfields⟩ := List.words_eq_cons_iff.mp hfields
    obtain ⟨w₃, w₄, rfl, h₃, hne'', hlast', hr₄, hfields⟩ := List.words_eq_cons_iff.mp hfields
    -- a word that is followed by another one is followed by a blank
    have hsep : ∀ {w f rest : Text}, (∀ c ∈ (w ++ (f ++ rest)).head?, isWhitespace c = true) →
        f ≠ [] → (∀ c ∈ f, isWhitespace c = false) → w ≠ [] := by
      rintro w f rest hblank hfne hf rfl
      cases f with
      | nil => exact hfne rfl
      | cons c f =>
          have hc := hf c List.mem_cons_self
          rw [hblank c rfl] at hc
          cases hc
    exact ⟨w₀, w₁, w₂, w₃, w₄, name, first, last, rfl,
      ⟨h₀, h₁, h₂, h₃, List.words_eq_nil_iff.mp hfields⟩,
      ⟨hsep hr₁ hne hname, hsep hr₂ hne' hfirst', hsep hr₃ hne'' hlast'⟩, ⟨hne, hname⟩, hfirst, hlast⟩

/-- An extent that fits: the end as a byte offset is a `u64`, and not past the image. -/
def Fits (size : Option Nat) (e : Nat × Nat) : Prop :=
  e.1 < e.2 ∧ e.2 * SECTOR_SIZE < 2 ^ 64 ∧ ∀ n ∈ size, e.2 * SECTOR_SIZE ≤ n

/-- One line. -/
theorem addLine_eq_ok {size : Option Nat} {kids kids' : List Child} {line : Text} :
    addLine size kids line = .ok kids' ↔ kids.length ≠ MAX_PARTITIONS ∧
      ∃ e : Nat × Nat, PartLine SignedDecimal line e.1 e.2 ∧ Fits size e ∧
        kids' = kids ++ numbered kids.length [extentWindow e] := by
  have hnumbered : ∀ e : Nat × Nat, numbered kids.length [extentWindow e]
      = [window kids.length (e.1 * SECTOR_SIZE) (e.2 * SECTOR_SIZE - e.1 * SECTOR_SIZE)] :=
    fun e => rfl
  have hpos : 0 < SECTOR_SIZE := by decide
  constructor
  · intro h
    obtain ⟨_, hcount, h⟩ := bind_eq_ok.mp h
    refine ⟨require_eq_ok.mp hcount, ?_⟩
    split at h
    · rename_i first name start stop hfields
      obtain ⟨_, hfirst, h⟩ := bind_eq_ok.mp h
      obtain ⟨s, hs, h⟩ := bind_eq_ok.mp h
      obtain ⟨e, he, h⟩ := bind_eq_ok.mp h
      obtain ⟨_, hextent, h⟩ := bind_eq_ok.mp h
      obtain ⟨a, ha, h⟩ := bind_eq_ok.mp h
      obtain ⟨b, hb, h⟩ := bind_eq_ok.mp h
      obtain ⟨_, hpast, h⟩ := bind_eq_ok.mp h
      obtain ⟨-, rfl⟩ := checked_eq_ok.mp ha
      obtain ⟨hlt, rfl⟩ := checked_eq_ok.mp hb
      rw [require_eq_ok.mp hfirst] at hfields
      refine ⟨(s, e), (partLine_iff fun _ _ => SignedDecimal.word).mpr ⟨name, start, stop, hfields,
        (parseSector_eq_ok.mp hs).1, (parseSector_eq_ok.mp he).1⟩, ⟨require_eq_ok.mp hextent, hlt,
          require_eq_ok.mp hpast⟩, ?_⟩
      rw [hnumbered]
      exact (Except.ok.inj h).symm
    · cases h
  · rintro ⟨hcount, ⟨s, e⟩, hline, ⟨hlt, hu64, hpast⟩, rfl⟩
    obtain ⟨name, first, last, hfields, hs, he⟩ := (partLine_iff fun _ _ => SignedDecimal.word).mp hline
    simp only at hlt hu64 hpast hs he
    have hstart : s * SECTOR_SIZE < 2 ^ 64 :=
      (Nat.mul_lt_mul_of_pos_right hlt hpos).trans hu64
    have he64 : e < 2 ^ 64 := (Nat.le_mul_of_pos_right e hpos).trans_lt hu64
    rw [hnumbered, addLine, hfields]
    simp only [require, checked, if_pos hcount, if_pos hlt, if_pos hu64, if_pos hpast, if_pos hstart,
      parseSector_eq_ok.mpr ⟨hs, hlt.trans he64⟩, parseSector_eq_ok.mpr ⟨he, he64⟩, bind,
      Except.bind, if_true]
    rfl

/-- All lines. -/
theorem foldlM_addLine_eq_ok {size : Option Nat} {kids kids' : List Child} {text : List Text}
    (hkids : kids.length ≤ MAX_PARTITIONS) :
    text.foldlM (addLine size) kids = .ok kids' ↔ ∃ extents : List (Nat × Nat),
      List.Forall₂ (fun line e => PartLine SignedDecimal line e.1 e.2) text extents ∧
      kids.length + extents.length ≤ MAX_PARTITIONS ∧ (∀ e ∈ extents, Fits size e) ∧
      kids' = kids ++ numbered kids.length (extents.map extentWindow) := by
  induction text generalizing kids with
  | nil =>
      constructor
      · intro h
        obtain rfl := Except.ok.inj h
        exact ⟨[], .nil, hkids, fun e he => absurd he List.not_mem_nil, (List.append_nil _).symm⟩
      · rintro ⟨extents, hlines, -, -, rfl⟩
        cases hlines
        exact congrArg Except.ok (List.append_nil _).symm
  | cons line text ih =>
      rw [List.foldlM_cons, bind_eq_ok]
      have hnext : ∀ e : Nat × Nat,
          (kids ++ numbered kids.length [extentWindow e]).length = kids.length + 1 := fun e => by
        rw [List.length_append]
        rfl
      have hjoin : ∀ (e : Nat × Nat) (extents : List (Nat × Nat)),
          kids ++ numbered kids.length [extentWindow e] ++
            numbered (kids.length + 1) (extents.map extentWindow)
              = kids ++ numbered kids.length ((e :: extents).map extentWindow) := by
        intro e extents
        have hone : numbered kids.length [extentWindow e]
            = [window kids.length (extentWindow e).1 (extentWindow e).2] := rfl
        rw [hone, List.append_assoc, List.map_cons, Partition.numbered_cons, List.singleton_append]
      constructor
      · rintro ⟨kids₁, hstep, hrest⟩
        obtain ⟨hcount, e, hline, hfits, rfl⟩ := addLine_eq_ok.mp hstep
        obtain ⟨extents, hlines, hroom, hall, rfl⟩ := (ih (by rw [hnext]; omega)).mp hrest
        rw [hnext] at hroom ⊢
        refine ⟨e :: extents, .cons hline hlines, ?_, List.forall_mem_cons.mpr ⟨hfits, hall⟩,
          hjoin e extents⟩
        rw [List.length_cons]
        omega
      · rintro ⟨extents, hlines, hroom, hall, rfl⟩
        cases hlines with
        | cons hline hlines =>
            rename_i e extents
            rw [List.length_cons] at hroom
            rw [List.forall_mem_cons] at hall
            refine ⟨_, addLine_eq_ok.mpr ⟨by omega, e, hline, hall.1, rfl⟩, ?_⟩
            refine (ih (by rw [hnext]; omega)).mpr ⟨extents, hlines, ?_, hall.2, ?_⟩
            · rw [hnext]
              omega
            · rw [hnext, hjoin]

/-! ## The container -/

/-- The container reads the table sector, and succeeds on the tables of the grammar. -/
theorem children_eq_ok {reader : Reader} {table : Bytes} {size : Nat} {kids : List Child}
    (hread : reader.readAt TABLE_OFFSET SECTOR_SIZE = .ok table) (htable : table.length = SECTOR_SIZE)
    (hsize : reader.size = some size) (hu64 : size < 2 ^ 64) :
    children reader = .ok kids ↔ ∃ extents, Accepts SignedDecimal table size extents ∧
      kids = numbered 0 (extents.map extentWindow) := by
  have hlines : ∀ text : Text, ((lines text).filter fun line => trim line ≠ [])
      = (lines text).filter fun line => ¬Blank line := by
    intro text
    refine List.filter_congr fun line _ => ?_
    simp only [ne_eq, trim_eq_nil_iff]
  have hfits : ∀ e : Nat × Nat, Fits (some size) e ↔ e.1 < e.2 ∧ e.2 * SECTOR_SIZE ≤ size := by
    intro e
    simp only [Fits, Option.mem_def, Option.some.injEq, forall_eq']
    omega
  have hempty : ∀ extents : List (Nat × Nat), numbered 0 (extents.map extentWindow) ≠ [] ↔
      1 ≤ extents.length := by
    intro extents
    cases extents with
    | nil => simp [numbered]
    | cons e extents => simp [Partition.numbered_cons]
  have hstart : ([] : List Child).length ≤ MAX_PARTITIONS := Nat.zero_le _
  constructor
  · intro h
    obtain ⟨table', htable', h⟩ := bind_eq_ok.mp h
    obtain rfl := Except.ok.inj (hread.symm.trans htable')
    obtain ⟨_, -, h⟩ := bind_eq_ok.mp h
    split at h
    · cases h
    · rename_i text htext
      obtain ⟨kids', hloop, h⟩ := bind_eq_ok.mp h
      obtain ⟨_, hnonempty, h⟩ := bind_eq_ok.mp h
      obtain rfl := Except.ok.inj h
      rw [hsize, hlines] at hloop
      obtain ⟨extents, hforall, hroom, hall, rfl⟩ := (foldlM_addLine_eq_ok hstart).mp hloop
      rw [List.length_nil, Nat.zero_add] at hroom
      refine ⟨extents, ⟨⟨text, fromUtf8_eq_some.mp htext, hforall⟩,
        ⟨(hempty extents).mp (require_eq_ok.mp hnonempty), hroom⟩, fun e he => (hfits e).mp (hall e he)⟩,
        rfl⟩
  · rintro ⟨extents, ⟨⟨text, htext, hforall⟩, ⟨hpos, hroom⟩, hextent⟩, rfl⟩
    have hloop : ((lines text).filter fun line => trim line ≠ []).foldlM (addLine reader.size) []
        = .ok (numbered 0 (extents.map extentWindow)) := by
      rw [hsize, hlines]
      refine (foldlM_addLine_eq_ok hstart).mpr ⟨extents, hforall, ?_, fun e he => (hfits e).mpr
        (hextent e he), rfl⟩
      rw [List.length_nil, Nat.zero_add]
      exact hroom
    refine bind_eq_ok.mpr ⟨table, hread, bind_eq_ok.mpr ⟨(), require_eq_ok.mpr htable, ?_⟩⟩
    rw [fromUtf8_eq_some.mpr htext]
    exact bind_eq_ok.mpr ⟨_, hloop, bind_eq_ok.mpr
      ⟨(), require_eq_ok.mpr ((hempty extents).mpr hpos), rfl⟩⟩

/-- What a child shows: the sectors of its extent, and nothing else. -/
def Covers (reader : Reader) (child : Child) (e : Nat × Nat) : Prop :=
  (child.view.reader reader).size = some ((e.2 - e.1) * SECTOR_SIZE) ∧
    ∀ off len, (child.view.reader reader).readAt off len =
      if off < (e.2 - e.1) * SECTOR_SIZE then
        reader.readAt (e.1 * SECTOR_SIZE + off) (min len ((e.2 - e.1) * SECTOR_SIZE - off))
      else .ok []

theorem covers_window {reader : Reader} {i size : Nat} {e : Nat × Nat} (hu64 : size < 2 ^ 64)
    (h : e.1 < e.2 ∧ e.2 * SECTOR_SIZE ≤ size) :
    Covers reader (window i (extentWindow e).1 (extentWindow e).2) e := by
  obtain ⟨hlt, hend⟩ := h
  have hlength : e.2 * SECTOR_SIZE - e.1 * SECTOR_SIZE = (e.2 - e.1) * SECTOR_SIZE :=
    (Nat.sub_mul _ _ _).symm
  refine ⟨congrArg some hlength, fun off len => ?_⟩
  show (sliceReader reader (e.1 * SECTOR_SIZE) (e.2 * SECTOR_SIZE - e.1 * SECTOR_SIZE)).readAt off len = _
  rw [hlength]
  simp only [sliceReader]
  by_cases hoff : off < (e.2 - e.1) * SECTOR_SIZE
  · rw [if_neg (Nat.not_le.mpr hoff), if_pos hoff, Nat.mod_eq_of_lt]
    rw [← hlength] at hoff
    omega
  · rw [if_pos (Nat.not_lt.mp hoff), if_neg hoff]

/-- **Plan 9 tables** are accepted as a whole: the children of a table sector are those of its
lines, numbered from 0, each of them the sectors of its extent, and there are children exactly
for the tables of the grammar. The numbers may have a plus sign. -/
theorem plan9_iff {reader : Reader} {table : Bytes} {size : Nat}
    (hread : reader.readAt TABLE_OFFSET SECTOR_SIZE = .ok table) (htable : table.length = SECTOR_SIZE)
    (hsize : reader.size = some size) (hu64 : size < 2 ^ 64) :
    ((∃ kids, children reader = .ok kids) ↔
      ∃ extents, Accepts SignedDecimal table size extents) ∧
    ∀ kids, children reader = .ok kids → ∃ extents, Accepts SignedDecimal table size extents ∧
      kids.length = extents.length ∧
      ∀ i e, extents[i]? = some e → ∃ child, kids[i]? = some child ∧
        child.index = UInt32.ofNat i ∧ child.offset = e.1 * SECTOR_SIZE ∧ Covers reader child e := by
  have hiff := @children_eq_ok reader table size
  refine ⟨⟨?_, ?_⟩, fun kids hkids => ?_⟩
  · rintro ⟨kids, hkids⟩
    obtain ⟨extents, haccepts, -⟩ := (hiff hread htable hsize hu64).mp hkids
    exact ⟨extents, haccepts⟩
  · rintro ⟨extents, haccepts⟩
    exact ⟨_, (hiff hread htable hsize hu64).mpr ⟨extents, haccepts, rfl⟩⟩
  · obtain ⟨extents, haccepts, rfl⟩ := (hiff hread htable hsize hu64).mp hkids
    refine ⟨extents, haccepts, ?_, fun i e he => ?_⟩
    · rw [numbered, List.length_mapIdx, List.length_map]
    · refine ⟨window i (extentWindow e).1 (extentWindow e).2, ?_, rfl, rfl,
        covers_window hu64 (haccepts.extent e (List.mem_of_getElem? he))⟩
      rw [numbered, List.getElem?_mapIdx, List.getElem?_map, he]
      simp

/-! ### Two tables -/

/-- The table sector with a text, and a disk of eight sectors around it. -/
def tableOf (text : Text) : Bytes :=
  text.flatMap String.utf8EncodeChar ++
    List.replicate (SECTOR_SIZE - (text.flatMap String.utf8EncodeChar).length) 0

def diskOf (text : Text) : Bytes := List.replicate 512 0 ++ tableOf text ++ List.replicate 3072 0

theorem tableOf_spec {text : Text} (hlen : (text.flatMap String.utf8EncodeChar).length ≤ SECTOR_SIZE)
    (hzero : ∀ b ∈ text.flatMap String.utf8EncodeChar, b ≠ 0) :
    (tableOf text).length = SECTOR_SIZE ∧
      (tableOf text).takeWhile (· ≠ 0) = text.flatMap String.utf8EncodeChar ∧
      (bytesReader (diskOf text)).readAt TABLE_OFFSET SECTOR_SIZE = .ok (tableOf text) ∧
      (bytesReader (diskOf text)).size = some 4096 := by
  have hlength : (tableOf text).length = SECTOR_SIZE := by
    rw [tableOf, List.length_append, List.length_replicate]
    omega
  refine ⟨hlength, ?_, ?_, ?_⟩
  · rw [tableOf, List.takeWhile_append_of_pos fun b hb => decide_eq_true (hzero b hb),
      List.takeWhile_replicate]
    simp
  · rw [bytesReader_readAt]
    exact congrArg Except.ok (List.slice_append_mid _ List.length_replicate hlength)
  · rw [bytesReader_size, diskOf, List.length_append, List.length_append, hlength,
      List.length_replicate, List.length_replicate]
    rfl

/-- A text of one line. -/
theorem lines_line {line : Text} (hfeed : '\n' ∉ line) (hreturn : line.getLast? ≠ some '\r') :
    lines (line ++ ['\n']) = [line] := by
  have hsplit : splitInclusive (line ++ ['\n']) = [line ++ ['\n']] := by
    clear hreturn
    induction line with
    | nil => rfl
    | cons c rest ih =>
        rw [List.mem_cons, not_or] at hfeed
        rw [List.cons_append, splitInclusive, if_neg (Ne.symm hfeed.1), ih hfeed.2]
  rw [lines, hsplit, List.map_singleton, stripEnd, List.getLast?_concat, if_pos rfl,
    List.dropLast_concat, if_neg hreturn]

/-- A text of one line with a letter in it. -/
theorem filter_line {line : Text} (hfeed : '\n' ∉ line) (hreturn : line.getLast? ≠ some '\r')
    {c : Char} (hc : c ∈ line) (hletter : isWhitespace c = false) :
    (lines (line ++ ['\n'])).filter (fun line => ¬Blank line) = [line] := by
  have hblank : ¬Blank line := fun h => Bool.false_ne_true (hletter.symm.trans (h c hc))
  rw [lines_line hfeed hreturn]
  exact List.filter_eq_self.mpr (List.forall_mem_singleton.mpr (decide_eq_true hblank))

def plainLine : Text := ['p', 'a', 'r', 't', ' ', 'f', 's', ' ', '2', ' ', '6']
def plusLine : Text := ['p', 'a', 'r', 't', ' ', 'f', 's', ' ', '+', '2', ' ', '6']

theorem partLine_sample {number : Text → Nat → Prop} {first : Text}
    (hfirst : number first 2) (hlast : number ['6'] 6) :
    PartLine number (part ++ ([' '] ++ (['f', 's'] ++ ([' '] ++ (first ++ ([' '] ++ ['6'])))))) 2 6 := by
  have hblank : Blank [' '] := List.forall_mem_singleton.mpr (by decide)
  have hempty : Blank [] := fun c hc => absurd hc List.not_mem_nil
  refine ⟨[], [' '], [' '], [' '], [], ['f', 's'], first, ['6'], by simp,
    ⟨hempty, hblank, hblank, hblank, hempty⟩, by simp, ⟨by simp, ?_⟩, hfirst, hlast⟩
  exact List.forall_mem_cons.mpr ⟨by decide, List.forall_mem_singleton.mpr (by decide)⟩

theorem decimal_digit {c : Char} {n : Nat} (h : isDigit c = true) (hn : c.toNat - 48 = n) :
    Decimal [c] n :=
  ⟨List.cons_ne_nil _ _, List.forall_mem_singleton.mpr h, by
    rw [← hn, valueOf, List.foldl_cons, List.foldl_nil, Nat.zero_mul, Nat.zero_add]⟩

/-- A table of one line, from its sector 2 to its sector 6. -/
theorem accepts_line {line : Text} (hline : PartLine SignedDecimal line 2 6)
    (htext : (tableOf (line ++ ['\n'])).takeWhile (· ≠ 0)
      = (line ++ ['\n']).flatMap String.utf8EncodeChar)
    (hlines : (lines (line ++ ['\n'])).filter (fun line => ¬Blank line) = [line]) :
    Accepts SignedDecimal (tableOf (line ++ ['\n'])) 4096 [(2, 6)] := by
  refine ⟨⟨line ++ ['\n'], htext, ?_⟩, by decide, List.forall_mem_singleton.mpr (by decide)⟩
  rw [hlines]
  exact .cons hline .nil

theorem plain_text : (tableOf (plainLine ++ ['\n'])).length = SECTOR_SIZE ∧
    (tableOf (plainLine ++ ['\n'])).takeWhile (· ≠ 0)
      = (plainLine ++ ['\n']).flatMap String.utf8EncodeChar ∧
    (bytesReader (diskOf (plainLine ++ ['\n']))).readAt TABLE_OFFSET SECTOR_SIZE
      = .ok (tableOf (plainLine ++ ['\n'])) ∧
    (bytesReader (diskOf (plainLine ++ ['\n']))).size = some 4096 :=
  tableOf_spec (by decide +kernel) (by decide +kernel)

theorem plan9_sample : ∃ kids, children (bytesReader (diskOf (plainLine ++ ['\n']))) = .ok kids := by
  obtain ⟨hlen, htext, hread, hsize⟩ := plain_text
  refine ((plan9_iff hread hlen hsize (by decide)).1).mpr ⟨[(2, 6)], accepts_line ?_ htext ?_⟩
  · exact @partLine_sample SignedDecimal ['2'] (Or.inl (decimal_digit (by decide) rfl))
      (Or.inl (decimal_digit (by decide) rfl))
  · exact @filter_line plainLine (by decide) (by decide) 'p' (by decide) (by decide)

/-- A number with a plus sign is accepted. -/
theorem plus_accepted : (∃ kids, children (bytesReader (diskOf (plusLine ++ ['\n']))) = .ok kids) ∧
    ¬∃ extents, Accepts Decimal (tableOf (plusLine ++ ['\n'])) 4096 extents := by
  obtain ⟨hlen, htext, hread, hsize⟩ := @tableOf_spec (plusLine ++ ['\n']) (by decide +kernel)
    (by decide +kernel)
  have hlines : (lines (plusLine ++ ['\n'])).filter (fun line => ¬Blank line) = [plusLine] :=
    @filter_line plusLine (by decide) (by decide) 'p' (by decide) (by decide)
  constructor
  · refine ⟨_, (children_eq_ok hread hlen hsize (by decide)).mpr ⟨[(2, 6)], accepts_line ?_ htext hlines,
      rfl⟩⟩
    exact @partLine_sample SignedDecimal ['+', '2'] (Or.inr ⟨['2'], rfl, decimal_digit (by decide) rfl⟩)
      (Or.inl (decimal_digit (by decide) rfl))
  · rintro ⟨extents, ⟨⟨text, hbytes, hforall⟩, -, -⟩⟩
    have hsame : text = plusLine ++ ['\n'] := Option.some.inj
      ((fromUtf8_eq_some.mpr hbytes).symm.trans (fromUtf8_eq_some.mpr htext))
    rw [hsame, hlines] at hforall
    cases hforall with
    | cons hline _ =>
        have hword : ∀ value n, Decimal value n →
            value ≠ [] ∧ ∀ c ∈ value, isWhitespace c = false := fun _ _ h =>
          SignedDecimal.word (.inl h)
        obtain ⟨name, first, last, hfields, hfirst, -⟩ := (partLine_iff hword).mp hline
        have hplus : fieldsOf plusLine = [part, ['f', 's'], ['+', '2'], ['6']] := by decide +kernel
        rw [hplus] at hfields
        simp only [List.cons.injEq] at hfields
        have hdigit := hfirst.digits '+' (by rw [← hfields.2.2.1]; exact List.mem_cons_self)
        exact absurd hdigit (by decide)

end Mountin.Plan9
