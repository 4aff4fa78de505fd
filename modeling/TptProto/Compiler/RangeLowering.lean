import TptProto.Compiler.Restrictions
import TptProto.Language.Statements
import TptProto.Reflect.Value

/-! From written ranges to those of the descriptor. Only the last statement of a body is
kept, and its bounds are narrowed to 32 bits. -/

namespace TptProto.Compiler

open TptProto.Foundation TptProto.Descriptor TptProto.Language TptProto.Lint TptProto.Reflect

section Reading

/-- The numbers a field can have. -/
def FieldNumber (n : Int32) : Prop := 1 ≤ n.toInt ∧ n.toInt ≤ 536870911

/-- How reflection reads a range. -/
def inclusive (start stop num : Int32) : Bool := start ≤ num && num ≤ stop

/-- The bounds of a written range; `max` is the largest 64-bit number. -/
def bounds : WrittenRange → Int64 × Int64
  | .single n => (n, n)
  | .upTo a b => (a, b)
  | .toMax a => (a, 9223372036854775807)
  | .dangling n => (n, n)

/-- Both bounds survive the narrowing. -/
def Fits (w : WrittenRange) : Prop := FitsInt32 (bounds w).1 ∧ FitsInt32 (bounds w).2

/-- The bounds survive and do not look like those of a single number. -/
def FitsLint (w : WrittenRange) : Prop :=
  Fits w ∧ ((bounds w).2.toInt = 0 → (bounds w).1.toInt ≤ 0)

/-- What is left of a bound in 32 bits. -/
def narrowed (n : Int64) : Int := n.toInt.bmod (2 ^ 32)

/-- A reader of stored ranges, how it reads the numbers of one, and the written ranges whose
numbers it gets right. -/
structure Reader where
  covers : Int32 → Int32 → Int32 → Bool
  Reads : Int → Int → Int → Prop
  Survives : WrittenRange → Prop
  covers_iff : ∀ a b n, covers a b n = true ↔ Reads a.toInt b.toInt n.toInt
  faithful : ∀ w, Survives w → ∀ n, 1 ≤ n →
    (Reads (narrowed (bounds w).1) (narrowed (bounds w).2) n ↔ w.Contains n)

theorem convertRange_tree (w : WrittenRange) :
    convertRange w.tree = ((bounds w).1.toInt32, (bounds w).2.toInt32) := by
  cases w <;> rfl

/-- A range that fits contains what lies between its bounds. -/
theorem contains_iff_bounds {w : WrittenRange} (fits : Fits w) {n : Int} :
    w.Contains n ↔ (bounds w).1.toInt ≤ n ∧ n ≤ (bounds w).2.toInt := by
  cases w with
  | upTo a b => rfl
  | toMax a => exact absurd fits.2 (by simp [bounds, FitsInt32])
  | single k | dangling k =>
    simp only [WrittenRange.Contains, bounds]
    omega

theorem narrowed_of_fits {n : Int64} (fits : FitsInt32 n) : narrowed n = n.toInt := by
  rw [narrowed, ← Int64.toInt_toInt32]
  exact toInt_toInt32_iff.mpr fits

/-- Reflection includes both bounds. -/
def reflectReader : Reader where
  covers := inclusive
  Reads start stop n := start ≤ n ∧ n ≤ stop
  Survives := Fits
  covers_iff a b n := by
    rw [inclusive, Bool.and_eq_true, decide_eq_true_eq, decide_eq_true_eq,
      Int32.le_iff_toInt_le, Int32.le_iff_toInt_le]
  faithful w fits n _ := by
    rw [contains_iff_bounds fits, narrowed_of_fits fits.1, narrowed_of_fits fits.2]

/-- The lint takes a stop of 0 for that of a single number. -/
def lintReader : Reader where
  covers := rangeCovers
  Reads start stop n := start ≤ n ∧ if stop = 0 then start = n else n ≤ stop
  Survives := FitsLint
  covers_iff a b n := by
    have zero : b = 0 ↔ b.toInt = 0 := by
      rw [← Int32.toInt_inj]
      rfl
    unfold rangeCovers
    split
    · rename_i below
      rw [Int32.lt_iff_toInt_lt] at below
      simp only [Bool.false_eq_true, false_iff]
      omega
    · rename_i above
      rw [Int32.lt_iff_toInt_lt] at above
      by_cases sentinel : b.toInt = 0
      · rw [if_pos (zero.mpr sentinel), if_pos sentinel, decide_eq_true_eq, ← Int32.toInt_inj]
        omega
      · rw [if_neg (mt zero.mp sentinel), if_neg sentinel, decide_eq_true_eq,
          Int32.le_iff_toInt_le]
        omega
  faithful := by
    rintro w ⟨fits, notSingle⟩ n low
    rw [contains_iff_bounds fits, narrowed_of_fits fits.1, narrowed_of_fits fits.2]
    by_cases sentinel : (bounds w).2.toInt = 0
    · have small := notSingle sentinel
      rw [if_pos sentinel]
      omega
    · rw [if_neg sentinel]

end Reading

section Exact

variable (reader : Reader) (keyword : String) (heads : List Parser)

/-- A range is read to hold a number although its bounds do not survive. -/
def Misread (w : WrittenRange) (n : Int) : Prop :=
  ¬ reader.Survives w ∧ reader.Reads (narrowed (bounds w).1) (narrowed (bounds w).2) n

/-- A reader of the stored ranges finds exactly the written numbers. -/
def ExactFor (stored : List (Int32 × Int32)) : Prop :=
  ∀ n, FieldNumber n →
    (Written keyword heads n.toInt ↔ ∃ r ∈ stored, reader.covers r.1 r.2 n = true)

/-- What all statements write, the last one writes too, in ranges that survive; ranges that do
not survive are misread only as what is written. -/
def LastSuffices : Prop :=
  ∀ ws, LastStatement keyword heads ws → ∀ n : Int, 1 ≤ n → n ≤ 536870911 →
    (Written keyword heads n →
      ∃ w ∈ ws, reader.Survives w ∧ w.Contains n ∨ Misread reader w n) ∧
    ((∃ w ∈ ws, Misread reader w n) → Written keyword heads n)

variable {reader keyword heads}

theorem lastStatement_unique {ws ws' : List WrittenRange} (first : LastStatement keyword heads ws)
    (second : LastStatement keyword heads ws') : ws = ws' := by
  obtain ⟨earlier, p, later, split, here, none⟩ := first
  obtain ⟨earlier', p', later', split', here', none'⟩ := second
  rw [split] at split'
  rcases List.append_eq_append_iff.mp split' with ⟨middle, _, rest⟩ | ⟨middle, _, rest⟩
  · cases middle with
    | nil =>
      rw [List.nil_append] at rest
      rw [(List.cons.inj rest).1] at here
      exact here.unique here'
    | cons q others =>
      rw [List.cons_append] at rest
      have member : p' ∈ later := by
        rw [(List.cons.inj rest).2]
        exact List.mem_append_right _ List.mem_cons_self
      exact absurd here' (none p' member ws')
  · cases middle with
    | nil =>
      rw [List.nil_append] at rest
      rw [← (List.cons.inj rest).1] at here
      exact here.unique here'
    | cons q others =>
      rw [List.cons_append] at rest
      have member : p ∈ later' := by
        rw [(List.cons.inj rest).2]
        exact List.mem_append_right _ List.mem_cons_self
      exact absurd here (none' p member ws)

/-- A stored range is read as its narrowed bounds are. -/
theorem covers_convertRange {w : WrittenRange} {n : Int32} :
    reader.covers (convertRange w.tree).1 (convertRange w.tree).2 n = true ↔
      reader.Reads (narrowed (bounds w).1) (narrowed (bounds w).2) n.toInt := by
  rw [reader.covers_iff, convertRange_tree, Int64.toInt_toInt32, Int64.toInt_toInt32]
  rfl

theorem exactFor_iff {ranges : List IntRange} (remain : Remain keyword heads [] ranges) :
    ExactFor reader keyword heads (ranges.map convertRange) ↔ LastSuffices reader keyword heads := by
  rcases remain with ⟨ws, last, rfl⟩ | ⟨none, rfl⟩
  · have written : ∀ w ∈ ws, ∀ n, w.Contains n → Written keyword heads n := by
      obtain ⟨earlier, p, later, split, here, _⟩ := last
      intro w member n contains
      refine ⟨p, ?_, ws, here, w, member, contains⟩
      rw [split]
      exact List.mem_append_right _ List.mem_cons_self
    have stored : ∀ n, (∃ r ∈ (ws.map WrittenRange.tree).map convertRange,
        reader.covers r.1 r.2 n = true) ↔ ∃ w ∈ ws,
          reader.Reads (narrowed (bounds w).1) (narrowed (bounds w).2) n.toInt := by
      intro n
      simp only [List.map_map, List.mem_map, Function.comp_apply, exists_exists_and_eq_and,
        covers_convertRange]
    constructor
    · intro exact' ws' last' number low high
      obtain ⟨n, rfl⟩ : ∃ n : Int32, n.toInt = number :=
        ⟨Int32.ofInt number, Int32.toInt_ofInt_of_le (by omega) (by omega)⟩
      rw [← lastStatement_unique last last']
      refine ⟨fun isWritten => ?_, fun ⟨w, member, misread⟩ =>
        (exact' n ⟨low, high⟩).mpr ((stored n).mpr ⟨w, member, misread.2⟩)⟩
      obtain ⟨w, member, covered⟩ := (stored n).mp ((exact' n ⟨low, high⟩).mp isWritten)
      refine ⟨w, member, ?_⟩
      by_cases survives : reader.Survives w
      · exact .inl ⟨survives, (reader.faithful w survives n.toInt low).mp covered⟩
      · exact .inr ⟨survives, covered⟩
    · intro suffices' n ⟨low, high⟩
      obtain ⟨kept, noMore⟩ := suffices' ws last n.toInt low high
      rw [stored]
      constructor
      · intro isWritten
        obtain ⟨w, member, ⟨survives, contains⟩ | misread⟩ := kept isWritten
        · exact ⟨w, member, (reader.faithful w survives n.toInt low).mpr contains⟩
        · exact ⟨w, member, misread.2⟩
      · rintro ⟨w, member, covered⟩
        by_cases survives : reader.Survives w
        · exact written w member _ ((reader.faithful w survives n.toInt low).mp covered)
        · exact noMore ⟨w, member, survives, covered⟩
  · have nothing : ∀ n, ¬ Written keyword heads n := by
      rintro n ⟨p, member, ws, here, _⟩
      exact none p member ws here
    constructor
    · rintro _ ws ⟨earlier, p, later, split, here, _⟩
      refine absurd here (none p ?_ ws)
      rw [split]
      exact List.mem_append_right _ List.mem_cons_self
    · intro _ n _
      simp [nothing]

end Exact

section Descriptors

/-- The ranges that the lint reads in a message: its reserved numbers. -/
def reservedPairs (ranges : List ReservedRange) : List (Int32 × Int32) :=
  ranges.map fun r => (r.start, r.stop)

def extensionPairs (ranges : List ExtensionRange) : List (Int32 × Int32) :=
  ranges.map fun r => (r.start, r.stop)

theorem reservedPairs_convert (ranges : List IntRange) :
    reservedPairs (ranges.map convertReserved) = ranges.map convertRange := by
  rw [reservedPairs, List.map_map]
  rfl

theorem extensionPairs_convert (ranges : List IntRange) :
    extensionPairs (ranges.map convertExtensionRange) = ranges.map convertRange := by
  rw [extensionPairs, List.map_map]
  rfl

/-- Reflection's test of a number is that of its reader. -/
theorem inExtensionRange_iff {m : DescriptorProto} {n : Int32} :
    inExtensionRange m n = true ↔
      ∃ r ∈ extensionPairs m.extensionRange, reflectReader.covers r.1 r.2 n = true := by
  simp only [inExtensionRange, List.any_eq_true, extensionPairs, List.mem_map,
    exists_exists_and_eq_and]
  rfl

end Descriptors

/-- The ranges of a message or an enum whose range statements parse without diagnostics are
compiled exactly, for each reader, if and only if the last statement suffices. -/
theorem ranges_exact_iff (text : DebugText) (fuel : Nat) :
    (∀ isGroup p m p', Parse.parseMessage text (fuel + 1) isGroup p = .ok (some m, p') →
      QuietMessage text fuel isGroup p → ∀ (cx : FileContext) path,
        let heads := (messageHeads text (fuel + 1) isGroup p).map Prod.snd
        let compiled := (cx.convertMessage path m).1
        (ExactFor lintReader "reserved" heads (reservedPairs compiled.reservedRange) ↔
          LastSuffices lintReader "reserved" heads) ∧
        (ExactFor lintReader "extensions" heads (extensionPairs compiled.extensionRange) ↔
          LastSuffices lintReader "extensions" heads) ∧
        ((∀ n, FieldNumber n → (Written "extensions" heads n.toInt ↔
            inExtensionRange compiled n = true)) ↔
          LastSuffices reflectReader "extensions" heads)) ∧
    ∀ p e p', Parse.parseEnum text fuel p = .ok (some e, p') → QuietEnum text fuel p →
      (ExactFor lintReader "reserved" ((enumHeads text fuel p).map Prod.snd)
          (reservedPairs (convertEnum e).1.reservedRange) ↔
        LastSuffices lintReader "reserved" ((enumHeads text fuel p).map Prod.snd)) := by
  refine ⟨fun isGroup p m p' run quiet cx path => ?_, fun p e p' run quiet => ?_⟩
  · obtain ⟨reserved, extensions⟩ := parseMessage_remain run quiet
    dsimp only
    simp only [inExtensionRange_iff]
    rw [FileContext.convertMessage_fst, reservedPairs_convert, extensionPairs_convert]
    exact ⟨exactFor_iff reserved, exactFor_iff extensions, exactFor_iff extensions⟩
  · rw [convertEnum, reservedPairs_convert]
    exact exactFor_iff (parseEnum_remain run quiet)

/-- `message M { reserved 1; reserved 2; }`. -/
def twoStatements : Parser where
  name := "a.proto"
  tokens := [.ident "message", .ident "M", .lBrace, .ident "reserved", .int 1, .semicolon,
    .ident "reserved", .int 2, .semicolon, .rBrace].map fun kind => ⟨kind, {}⟩

private def plainText : DebugText := ⟨id, fun _ => ""⟩

private def plainContext : FileContext := ⟨fun _ => "", [], [], "proto3"⟩

private theorem twoStatements_parses : ∃ m p',
    Parse.parseMessage plainText 13 false twoStatements = .ok (some m, p') ∧
      m.reservedRanges = [WrittenRange.tree (.single 2)] :=
  ⟨_, _, rfl, rfl⟩

private theorem twoStatements_quiet : QuietMessage plainText 12 false twoStatements := by
  unfold QuietMessage
  decide +kernel

private theorem twoStatements_heads :
    (messageHeads plainText 13 false twoStatements).map Prod.snd =
      [{ twoStatements with pos := 3, depth := 1 }, { twoStatements with pos := 6, depth := 1 }] :=
  rfl

theorem ranges_exact_iff_twoStatements : ∃ m p',
    Parse.parseMessage plainText 13 false twoStatements = .ok (some m, p') ∧
      (ExactFor lintReader "reserved"
          ((messageHeads plainText 13 false twoStatements).map Prod.snd)
          (reservedPairs (plainContext.convertMessage "" m).1.reservedRange) ↔
        LastSuffices lintReader "reserved"
          ((messageHeads plainText 13 false twoStatements).map Prod.snd)) := by
  obtain ⟨m, p', run, _⟩ := twoStatements_parses
  exact ⟨m, p', run, ((ranges_exact_iff plainText 12).1 false twoStatements m p' run
    twoStatements_quiet plainContext "").1⟩

theorem not_ranges_exact :
    ¬ ∀ text fuel isGroup p m p',
      Parse.parseMessage text (fuel + 1) isGroup p = .ok (some m, p') →
      QuietMessage text fuel isGroup p → ∀ (cx : FileContext) path,
        ExactFor lintReader "reserved" ((messageHeads text (fuel + 1) isGroup p).map Prod.snd)
          (reservedPairs (cx.convertMessage path m).1.reservedRange) := by
  intro exact'
  obtain ⟨m, p', run, ranges⟩ := twoStatements_parses
  have number : FieldNumber 1 := ⟨by decide, by decide⟩
  have written : Written "reserved"
      ((messageHeads plainText 13 false twoStatements).map Prod.snd) 1 := by
    rw [twoStatements_heads]
    exact ⟨_, List.mem_cons_self, [.single 1], ⟨by simp, _, rfl⟩, .single 1,
      List.mem_cons_self, rfl⟩
  have found := (exact' plainText 12 false twoStatements m p' run twoStatements_quiet
    plainContext "" 1 number).mp written
  rw [FileContext.convertMessage_fst, reservedPairs_convert, ranges] at found
  exact absurd found (by decide +kernel)

end TptProto.Compiler
