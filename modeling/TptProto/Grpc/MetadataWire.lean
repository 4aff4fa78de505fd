import TptProto.Foundation.Base64
import TptProto.Grpc.Deframe

/-! Metadata as header pairs and as a header map, and what comes back from either. -/

namespace TptProto.Grpc

open TptProto.Core TptProto.Foundation

/-- The bytes of header texts: visible ASCII, spaces and tabs. -/
def visible (b : UInt8) : Bool := (32 ≤ b && b < 127) || b = 9

/-- Metadata built through the public insertions. -/
inductive Authored : Metadata → Prop where
  | empty : Authored {}
  | text {before after : Metadata} (authored : Authored before) (key value : String)
      (inserted : before.insertText key value = .ok after) : Authored after
  | binary {before after : Metadata} (authored : Authored before) (key : String)
      (value : List UInt8) (inserted : before.insertBinary key value = .ok after) : Authored after

variable (base64 : Base64) (encode : List UInt8 → String)
  (headerName : List UInt8 → Option String) (capacity : Nat)

/-- The keys that a status takes for itself. -/
def protocolKeys : List String := ["grpc-status", "grpc-message", "grpc-status-details-bin"]

/-- What is asked of the libraries: base64 text is visible and decodes to what was encoded, a
name that is a key already stays as it is, and the names of the protocol are names. -/
structure HeaderLaws : Prop where
  inverse : ∀ value, base64 (encode value) = .ok value
  text : ∀ value, (asBytes (encode value)).all visible = true
  normal : ∀ key name, Metadata.validateKey key true = .ok () →
    headerName (asBytes key) = some name → name = key
  known : ∀ key ∈ protocolKeys, headerName (asBytes key) ≠ none

section Authoring

/-- What public insertion keeps: sorted entries under unreserved keys, ASCII unless binary. -/
structure Wellformed (metadata : Metadata) : Prop where
  sorted : SortedMap.Sorted metadata.map
  keys : ∀ entry ∈ metadata.map, Metadata.validateKey entry.1 false = .ok ()
  ascii : ∀ entry ∈ metadata.map, endsWith entry.1 "-bin" = false → ∀ b ∈ entry.2, b < 128

theorem insertBinaryInner_wellformed {before after : Metadata} {key : String}
    {value : List UInt8} (wellformed : Wellformed before)
    (valid : Metadata.validateKey key false = .ok ())
    (inserted : before.insertBinaryInner key value = .ok after) : Wellformed after := by
  unfold Metadata.insertBinaryInner at inserted
  split at inserted
  · cases inserted
  · rename_i ascii
    cases inserted
    have entries : ∀ entry ∈ SortedMap.insert before.map key value,
        entry = (key, value) ∨ entry ∈ before.map := by
      intro entry member
      have found := SortedMap.get?_of_mem (wellformed.sorted.insert key value) member
      rw [SortedMap.get?_insert wellformed.sorted] at found
      split at found
      · rename_i same
        exact .inl (Prod.ext same (Option.some.inj found).symm)
      · exact .inr (SortedMap.mem_of_get? found)
    refine ⟨wellformed.sorted.insert _ _, fun entry member => ?_, fun entry member text => ?_⟩
    · rcases entries entry member with rfl | old
      · exact valid
      · exact wellformed.keys entry old
    · rcases entries entry member with rfl | old
      · simpa [text, UInt8.not_le] using ascii
      · exact wellformed.ascii entry old text

theorem Authored.wellformed {metadata : Metadata} (authored : Authored metadata) :
    Wellformed metadata := by
  induction authored with
  | empty => exact ⟨SortedMap.sorted_nil, by simp, by simp⟩
  | text authored key value inserted inductionHypothesis =>
    unfold Metadata.insertText at inserted
    cases valid : Metadata.validateKey key false with
    | error e =>
      rw [valid] at inserted
      cases inserted
    | ok =>
      rw [valid] at inserted
      exact insertBinaryInner_wellformed inductionHypothesis valid inserted
  | binary authored key value inserted inductionHypothesis =>
    unfold Metadata.insertBinary at inserted
    cases valid : Metadata.validateKey key false with
    | error e =>
      rw [valid] at inserted
      cases inserted
    | ok =>
      rw [valid] at inserted
      exact insertBinaryInner_wellformed inductionHypothesis valid inserted

theorem unreserved_of_valid {key : String}
    (valid : Metadata.validateKey key false = .ok ()) :
    startsWith key "grpc-" = false ∧ Metadata.validateKey key true = .ok () := by
  unfold Metadata.validateKey at valid ⊢
  simp only [Bool.not_false, Bool.true_and, Bool.not_true, Bool.false_and] at valid ⊢
  split at valid
  · cases valid
  · split at valid
    · cases valid
    · rename_i nonempty reserved
      simp only [Bool.or_eq_true, not_or, Bool.not_eq_true] at reserved
      simp only [nonempty, if_false, Bool.false_eq_true]
      exact ⟨reserved.1, valid⟩

theorem valid_received {key : String} {reserved : Bool}
    (valid : Metadata.validateKey key reserved = .ok ()) : Metadata.validateKey key true = .ok () := by
  cases reserved with
  | false => exact (unreserved_of_valid valid).2
  | true => exact valid

end Authoring

section Rendered

theorem fromStr_eq (text : String) :
    fromStr text = if (asBytes text).all visible then some (asBytes text) else none := rfl

theorem visible_ascii {b : UInt8} (seen : visible b = true) : b < 128 := by
  simp only [visible, Bool.or_eq_true, Bool.and_eq_true, decide_eq_true_eq] at seen
  rcases seen with ⟨_, below⟩ | same
  · exact UInt8.lt_of_lt_of_le below (by decide)
  · rw [same]
    decide

/-- Visible text is read back. -/
theorem toStr_asBytes {text : String} (seen : (asBytes text).all visible = true) :
    toStr (asBytes text) = some text := by
  have ascii : ∀ b ∈ asBytes text, b < 128 := fun b member =>
    visible_ascii (List.all_eq_true.mp seen b member)
  have spelled : String.ofList ((asBytes text).map byteChar) = text :=
    asBytes_inj (asBytes_byteChars ascii)
  have shown : toStr (asBytes text) =
      if (asBytes text).all visible then some (String.ofList ((asBytes text).map byteChar))
      else none := rfl
  rw [shown, if_pos seen, spelled]

theorem lossy_ascii {value : List UInt8} (ascii : ∀ b ∈ value, b < 128) :
    asBytes (fromUtf8Lossy value) = value := by
  have text := asBytes_byteChars ascii
  rw [← text, fromUtf8Lossy_asBytes]

end Rendered

section Headers

/-- The header of an entry, if it has one. -/
def headerOf (entry : String × List UInt8) : Option (String × List UInt8) :=
  match headerName (asBytes entry.1),
    fromStr (Metadata.renderedValue encode entry.1 entry.2) with
  | some name, some val => some (name, val)
  | _, _ => none

theorem render_run {entries : List (String × List UInt8)} {out : HeaderMap}
    (room : out.length ≤ capacity) :
    entries.foldlM (Metadata.render encode headerName capacity) out =
      if out.length + (entries.filterMap (headerOf encode headerName)).length ≤ capacity then
        .ok (out ++ entries.filterMap (headerOf encode headerName))
      else .panic := by
  induction entries generalizing out with
  | nil => simp [room]
  | cons entry rest inductionHypothesis =>
    have step : Metadata.render encode headerName capacity out entry =
        match headerOf encode headerName entry with
        | some (name, val) => out.append capacity name val
        | none => .ok out := by
      unfold Metadata.render headerOf
      cases headerName (asBytes entry.1) with
      | none => rfl
      | some name =>
        cases fromStr (Metadata.renderedValue encode entry.1 entry.2) <;> rfl
    rw [List.foldlM_cons, step]
    cases header : headerOf encode headerName entry with
    | none =>
      rw [List.filterMap_cons_none header]
      exact inductionHypothesis room
    | some pair =>
      rw [List.filterMap_cons_some header]
      simp only [HeaderMap.append]
      by_cases space : out.length < capacity
      · have still : (out ++ [(pair.1, pair.2)]).length ≤ capacity := by
          rw [List.length_append]
          exact space
        rw [if_pos space, Outcome.ok_bind, inductionHypothesis still]
        simp only [List.length_append, List.length_cons, List.length_nil, List.append_assoc,
          List.singleton_append, Nat.zero_add, Nat.add_assoc, Nat.add_comm 1]
      · rw [if_neg space, Outcome.panic_bind, if_neg]
        simp only [List.length_cons]
        omega

/-- Every entry becomes the header that it has, as long as there is room. -/
theorem toHeaderMap_eq (metadata : Metadata) :
    metadata.toHeaderMap encode headerName capacity =
      if (metadata.map.filterMap (headerOf encode headerName)).length ≤ capacity then
        .ok (metadata.map.filterMap (headerOf encode headerName))
      else .panic := by
  rw [Metadata.toHeaderMap, render_run encode headerName capacity (Nat.zero_le _)]
  simp

/-- Whether an entry has a header. -/
def carried (entry : String × List UInt8) : Bool :=
  (headerName (asBytes entry.1)).isSome &&
    (asBytes (Metadata.renderedValue encode entry.1 entry.2)).all visible

theorem headerOf_isSome (entry : String × List UInt8) :
    (headerOf encode headerName entry).isSome = carried encode headerName entry := by
  unfold headerOf carried
  cases headerName (asBytes entry.1) with
  | none => rfl
  | some name =>
    rw [fromStr_eq]
    cases (asBytes (Metadata.renderedValue encode entry.1 entry.2)).all visible <;> rfl

theorem headers_length {entries : List (String × List UInt8)}
    (all : ∀ entry ∈ entries, carried encode headerName entry = true) :
    (entries.filterMap (headerOf encode headerName)).length = entries.length := by
  rw [List.length_filterMap_eq_countP, List.countP_eq_length]
  intro entry member
  rw [headerOf_isSome]
  exact all entry member

variable {base64 encode headerName} in
theorem pairs_eq (laws : HeaderLaws base64 encode headerName)
    {entries : List (String × List UInt8)}
    (keys : ∀ entry ∈ entries, Metadata.validateKey entry.1 true = .ok ()) :
    headersToPairs (entries.filterMap (headerOf encode headerName)) =
      (entries.filter (carried encode headerName)).map fun entry =>
        (entry.1, Metadata.renderedValue encode entry.1 entry.2) := by
  induction entries with
  | nil => rfl
  | cons entry rest inductionHypothesis =>
    have later := inductionHypothesis fun other member => keys other (List.mem_cons_of_mem _ member)
    cases named : headerName (asBytes entry.1) with
    | none =>
      have header : headerOf encode headerName entry = none := by simp [headerOf, named]
      have lost : carried encode headerName entry = false := by simp [carried, named]
      rw [List.filterMap_cons_none header, List.filter_cons_of_neg (by simp [lost]), later]
    | some name =>
      obtain rfl := laws.normal _ _ (keys entry List.mem_cons_self) named
      cases seen : (asBytes (Metadata.renderedValue encode entry.1 entry.2)).all visible with
      | false =>
        have header : headerOf encode headerName entry = none := by
          simp [headerOf, named, fromStr_eq, seen]
        have lost : carried encode headerName entry = false := by simp [carried, seen]
        rw [List.filterMap_cons_none header, List.filter_cons_of_neg (by simp [lost]), later]
      | true =>
        have header : headerOf encode headerName entry =
            some (entry.1, asBytes (Metadata.renderedValue encode entry.1 entry.2)) := by
          simp [headerOf, named, fromStr_eq, seen]
        have kept : carried encode headerName entry = true := by simp [carried, named, seen]
        rw [List.filterMap_cons_some header, List.filter_cons_of_pos kept, List.map_cons, ← later]
        simp [headersToPairs, toStr_asBytes seen]

end Headers

section Received

variable {base64 encode headerName} (laws : HeaderLaws base64 encode headerName)

/-- Under a key that is not binary, a value is text. -/
def Textual (entry : String × List UInt8) : Prop :=
  endsWith entry.1 "-bin" = false → asBytes (fromUtf8Lossy entry.2) = entry.2

include laws in
theorem receivedValue_rendered {entry : String × List UInt8} (textual : Textual entry) :
    Metadata.receivedValue base64 entry.1 (Metadata.renderedValue encode entry.1 entry.2) =
      .ok entry.2 := by
  unfold Metadata.receivedValue Metadata.renderedValue
  cases binary : endsWith entry.1 "-bin" with
  | true => simp only [if_true, laws.inverse]
  | false => simp only [Bool.false_eq_true, if_false, textual binary]

include laws in
theorem receive_rendered {entries : List (String × List UInt8)}
    (reserved : Bool)
    (keys : ∀ entry ∈ entries, Metadata.validateKey entry.1 reserved = .ok ())
    (textual : ∀ entry ∈ entries, Textual entry) (m : Metadata) :
    (entries.map fun entry => (entry.1, Metadata.renderedValue encode entry.1 entry.2)).foldlM
        (Metadata.receive base64 reserved) m =
      .ok ⟨entries.foldl (fun map entry => SortedMap.insert map entry.1 entry.2) m.map⟩ := by
  induction entries generalizing m with
  | nil => rfl
  | cons entry rest inductionHypothesis =>
    have received : Metadata.receive base64 reserved m
        (entry.1, Metadata.renderedValue encode entry.1 entry.2) =
          .ok ⟨SortedMap.insert m.map entry.1 entry.2⟩ :=
      (Metadata.receive_eq_ok base64).mpr ⟨keys entry List.mem_cons_self, entry.2,
        receivedValue_rendered laws (textual entry List.mem_cons_self), rfl⟩
    rw [List.map_cons, List.foldlM_cons, received]
    exact inductionHypothesis (fun other member => keys other (List.mem_cons_of_mem _ member))
      (fun other member => textual other (List.mem_cons_of_mem _ member)) _

include laws in
/-- What is received are the entries that have a header. -/
theorem parse_headers_eq {sent : Metadata} (sorted : SortedMap.Sorted sent.map) {reserved : Bool}
    (keys : ∀ entry ∈ sent.map, Metadata.validateKey entry.1 reserved = .ok ())
    (textual : ∀ entry ∈ sent.map, Textual entry) (maxSize : Nat) (received : Metadata) :
    Metadata.parse base64 (headersToPairs (sent.map.filterMap (headerOf encode headerName))) maxSize
        reserved = .ok received ↔
      received = ⟨sent.map.filter (carried encode headerName)⟩ ∧ received.totalSize ≤ maxSize := by
  have inside : ∀ entry ∈ sent.map.filter (carried encode headerName), entry ∈ sent.map :=
    fun entry member => (List.mem_filter.mp member).1
  have run := receive_rendered laws reserved (fun entry member => keys entry (inside entry member))
    (fun entry member => textual entry (inside entry member)) {}
  rw [(sorted.filter (carried encode headerName)).foldl_insert] at run
  rw [Metadata.parse, pairs_eq laws (fun entry member => valid_received (keys entry member)), run]
  simp only [bind, Except.bind]
  split
  · rename_i large
    constructor
    · intro failed
      cases failed
    · rintro ⟨rfl, small⟩
      omega
  · rename_i small
    constructor
    · intro done
      cases done
      exact ⟨rfl, by omega⟩
    · rintro ⟨rfl, _⟩
      rfl

include laws in
theorem carried_iff {entry : String × List UInt8} (textual : Textual entry) :
    carried encode headerName entry = true ↔ headerName (asBytes entry.1) ≠ none ∧
      (endsWith entry.1 "-bin" = false → entry.2.all visible = true) := by
  simp only [carried, Bool.and_eq_true, Option.isSome_iff_ne_none, Metadata.renderedValue]
  refine and_congr_right' ?_
  cases binary : endsWith entry.1 "-bin" with
  | true => simp [laws.text]
  | false => simp [textual binary]

include laws in
/-- The entries of metadata that have a header. -/
theorem carried_metadata_iff {m : Metadata} (authored : Authored m) :
    (∀ entry ∈ m.map, carried encode headerName entry = true) ↔
      (∀ entry ∈ m.map, headerName (asBytes entry.1) ≠ none) ∧
        ∀ entry ∈ m.map, endsWith entry.1 "-bin" = false →
          entry.2.all visible = true := by
  have textual : ∀ entry ∈ m.map, Textual entry := fun entry member plain =>
    lossy_ascii (authored.wellformed.ascii entry member plain)
  constructor
  · intro all
    have both := fun entry member => (carried_iff laws (textual entry member)).mp (all entry member)
    exact ⟨fun entry member => (both entry member).1, fun entry member => (both entry member).2⟩
  · rintro ⟨names, values⟩ entry member
    exact (carried_iff laws (textual entry member)).mpr ⟨names entry member, values entry member⟩

end Received

section Survival

variable {base64 encode headerName}

variable (base64 encode headerName) in
/-- Both forms give the metadata back, wherever they are within the size limit, and each entry is in
the header map. -/
def Metadata.Survives (m : Metadata) : Prop :=
  ∀ maxSize, m.totalSize ≤ maxSize →
    Metadata.fromHeaders base64 (m.toHeaders encode) maxSize = .ok m ∧
      ∃ headers, m.toHeaderMap encode headerName capacity = .ok headers ∧
        (∀ entry ∈ m.map, ∃ name, headerName (asBytes entry.1) = some name ∧
          (name, asBytes (Metadata.renderedValue encode entry.1 entry.2)) ∈ headers) ∧
        Metadata.fromHeaders base64 (headersToPairs headers) maxSize = .ok m

variable (headerName) in
/-- The metadata that a header map can carry. -/
structure Metadata.Carriable (m : Metadata) : Prop where
  names : ∀ entry ∈ m.map, headerName (asBytes entry.1) ≠ none
  values : ∀ entry ∈ m.map, endsWith entry.1 "-bin" = false → entry.2.all visible = true
  room : m.map.length ≤ capacity

theorem fromHeaders_toHeaders (laws : HeaderLaws base64 encode headerName) {m : Metadata}
    (authored : Authored m) {maxSize : Nat} (within : m.totalSize ≤ maxSize) :
    Metadata.fromHeaders base64 (m.toHeaders encode) maxSize = .ok m := by
  have wellformed := authored.wellformed
  have run := receive_rendered laws false wellformed.keys
    (fun entry member plain => lossy_ascii (wellformed.ascii entry member plain)) {}
  rw [wellformed.sorted.foldl_insert] at run
  rw [Metadata.fromHeaders, Metadata.parse, Metadata.toHeaders, run]
  exact if_neg (Nat.not_lt.mpr within)

/-- Metadata survive the wire if and only if a header map can carry them. -/
theorem metadata_survives_iff (laws : HeaderLaws base64 encode headerName) (m : Metadata)
    (authored : Authored m) :
    m.Survives base64 encode headerName capacity ↔ m.Carriable headerName capacity := by
  have wellformed := authored.wellformed
  have back := parse_headers_eq laws wellformed.sorted wellformed.keys
    (fun entry member plain => lossy_ascii (wellformed.ascii entry member plain))
  have kept := carried_metadata_iff laws authored
  constructor
  · intro survives
    obtain ⟨_, headers, mapped, _, read⟩ := survives m.totalSize (Nat.le_refl _)
    rw [toHeaderMap_eq] at mapped
    split at mapped
    · rename_i room
      cases mapped
      have same := congrArg Metadata.map ((back _ m).mp read).1
      have all : ∀ entry ∈ m.map, carried encode headerName entry = true :=
        List.filter_eq_self.mp same.symm
      rw [headers_length encode headerName all] at room
      exact ⟨(kept.mp all).1, (kept.mp all).2, room⟩
    · cases mapped
  · intro carriable maxSize within
    have all := kept.mpr ⟨carriable.names, carriable.values⟩
    refine ⟨fromHeaders_toHeaders laws authored within, m.map.filterMap (headerOf encode headerName),
      ?_, fun entry member => ?_, ?_⟩
    · rw [toHeaderMap_eq, headers_length encode headerName all, if_pos carriable.room]
    · have present := all entry member
      simp only [carried, Bool.and_eq_true] at present
      obtain ⟨name, named⟩ := Option.isSome_iff_exists.mp present.1
      refine ⟨name, named, List.mem_filterMap.mpr ⟨entry, member, ?_⟩⟩
      simp only [headerOf, named, fromStr_eq, present.2, if_true]
    · refine (back maxSize m).mpr ⟨?_, within⟩
      rw [List.filter_eq_self.mpr all]

end Survival

section Samples

def sampleBase64 : Base64 := fun text =>
  match Base64.decode false text with
  | some value => .ok value
  | none => .error "Invalid symbol"

def sampleEncode (value : List UInt8) : String := Base64.encode false value

/-- The bytes of header names beside letters and digits. -/
def nameMarks : List UInt8 := [33, 35, 36, 37, 38, 39, 42, 43, 45, 46, 94, 95, 96, 124, 126]

def upper (b : UInt8) : Bool := 65 ≤ b && b ≤ 90

def nameByte (b : UInt8) : Bool :=
  (97 ≤ b && b ≤ 122) || upper b || (48 ≤ b && b ≤ 57) || nameMarks.contains b

/-- Names are lowercased. -/
def sampleName (bytes : List UInt8) : Option String :=
  if bytes ≠ [] && bytes.length < 65536 && bytes.all nameByte then
    fromUtf8 (bytes.map fun b => if upper b then b + 32 else b)
  else none

theorem base64_visible (value : List UInt8) :
    (asBytes (sampleEncode value)).all visible = true := by
  have digit : ∀ n < 64, (String.utf8EncodeChar (Base64.digit false n)).all visible = true := by
    decide
  have pad : (String.utf8EncodeChar '=').all visible = true := by decide
  rw [sampleEncode, Base64.encode, asBytes_ofList]
  induction value using Base64.encodeChars.induct with
  | case1 => rfl
  | case2 a =>
    have boundA := a.toNat_lt
    simp only [Base64.encodeChars, List.flatMap_cons, List.flatMap_nil, List.all_append, pad,
      digit (a.toNat / 4) (by omega), digit (a.toNat % 4 * 16) (by omega)]
    rfl
  | case3 a b =>
    have boundA := a.toNat_lt
    have boundB := b.toNat_lt
    simp only [Base64.encodeChars, List.flatMap_cons, List.flatMap_nil, List.all_append, pad,
      digit (a.toNat / 4) (by omega), digit (a.toNat % 4 * 16 + b.toNat / 16) (by omega),
      digit (b.toNat % 16 * 4) (by omega)]
    rfl
  | case4 a b c rest inductionHypothesis =>
    have boundA := a.toNat_lt
    have boundB := b.toNat_lt
    have boundC := c.toNat_lt
    simp only [Base64.encodeChars, List.flatMap_cons, List.all_append,
      digit (a.toNat / 4) (by omega), digit (a.toNat % 4 * 16 + b.toNat / 16) (by omega),
      digit (b.toNat % 16 * 4 + c.toNat / 64) (by omega), digit (c.toNat % 64) (by omega),
      inductionHypothesis]
    rfl

theorem keyByte_lower {b : UInt8} (admitted : Metadata.keyByte b = true) :
    ¬ upper b = true := by
  simp only [Metadata.keyByte, Bool.or_eq_true, Bool.and_eq_true, decide_eq_true_eq,
    UInt8.le_iff_toNat_le, ← UInt8.toNat_inj, UInt8.reduceToNat] at admitted
  simp only [upper, Bool.and_eq_true, decide_eq_true_eq, UInt8.le_iff_toNat_le, UInt8.reduceToNat]
  omega

theorem sampleLaws : HeaderLaws sampleBase64 sampleEncode sampleName where
  inverse value := by rw [sampleBase64, sampleEncode, Base64.decode_encode]
  text := base64_visible
  normal key name valid named := by
    have bytes : (asBytes key).all Metadata.keyByte = true := by
      unfold Metadata.validateKey at valid
      split at valid
      · cases valid
      · split at valid
        · cases valid
        · split at valid
          · assumption
          · cases valid
    have lower : (asBytes key).map (fun b => if upper b then b + 32 else b) = asBytes key := by
      refine (List.map_congr_left fun b member => if_neg ?_).trans (List.map_id _)
      exact keyByte_lower (List.all_eq_true.mp bytes b member)
    unfold sampleName at named
    split at named
    · rw [lower, fromUtf8_asBytes] at named
      exact (Option.some.inj named).symm
    · cases named
  known := by decide

private def note (text : String) : Metadata := ⟨[("note", asBytes text)]⟩

theorem metadata_survives_note :
    (note "seen").Survives sampleBase64 sampleEncode sampleName 24576 :=
  (metadata_survives_iff 24576 sampleLaws (note "seen") (.text .empty "note" "seen" rfl)).mpr
    ⟨by decide, by decide, by decide⟩

/-- A value of two lines is admitted, and gets no header. -/
theorem not_metadata_survives : Authored (note "two\nlines") ∧
    ¬ (note "two\nlines").Survives sampleBase64 sampleEncode sampleName 24576 := by
  refine ⟨.text .empty "note" "two\nlines" rfl, fun survives => ?_⟩
  obtain ⟨_, headers, mapped, present, _⟩ := survives _ (Nat.le_refl _)
  have given : (note "two\nlines").toHeaderMap sampleEncode sampleName 24576 = .ok [] := by decide
  rw [given] at mapped
  cases mapped
  obtain ⟨_, _, member⟩ := present ("note", asBytes "two\nlines") List.mem_cons_self
  cases member

end Samples

end TptProto.Grpc
