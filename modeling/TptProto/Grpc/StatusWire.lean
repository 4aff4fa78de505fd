import TptProto.Grpc.MetadataWire
import TptProto.Grpc.RpcStatus

/-! Which statuses come back from the trailers that they are sent as. -/

namespace TptProto.Grpc

open TptProto.Core TptProto.Foundation

variable (base64 : Base64) (encode : List UInt8 → String)
  (headerName : List UInt8 → Option String) (capacity : Nat)

/-- Two statuses agree, reserved metadata aside. -/
structure Status.Agrees (sent received : Status) : Prop where
  code : received.code = sent.code
  message : received.message = sent.message
  details : received.details = sent.details
  metadata : ∀ key, startsWith key "grpc-" = false →
    received.metadata.getBinary key = sent.metadata.getBinary key

namespace Status

variable (status : Status)

/-- The status comes back from its trailers, as a client reads them. -/
def Survives : Prop :=
  ∃ trailers headers received, status.toTrailers = .ok trailers ∧
    trailers.toHeaderMap encode headerName capacity = .ok headers ∧
      Metadata.fromTrailers base64 (headersToPairs headers) usizeMax = .ok received ∧
        status.Agrees (fromTrailers received)

/-- What a status becomes in trailers. -/
def trailerEntries : List (String × List UInt8) :=
  ("grpc-status", asBytes (toString status.code.asI32)) ::
    ((if status.message = "" then [] else [("grpc-message", asBytes status.message)]) ++
      (if status.details = [] then [] else [("grpc-status-details-bin", status.rpcBytes)]) ++
        status.metadata.map)

/-- The statuses that headers can carry. -/
structure Carriable : Prop where
  message : (asBytes status.message).all visible = true
  values : ∀ entry ∈ status.metadata.map, endsWith entry.1 "-bin" = false →
    entry.2.all visible = true
  names : ∀ entry ∈ status.metadata.map, headerName (asBytes entry.1) ≠ none
  details : status.details = [] ∨ status.DetailsFit
  room : status.trailerEntries.length ≤ capacity
  size : Metadata.totalSize ⟨status.trailerEntries⟩ ≤ usizeMax

end Status

section Trailers

private theorem forward_run {metadata m : Metadata} {entries : List (String × List UInt8)}
    (unreserved : ∀ entry ∈ entries, startsWith entry.1 "grpc-" = false)
    (found : ∀ entry ∈ entries, metadata.getBinary entry.1 = some entry.2) :
    (entries.map Prod.fst).foldl (Status.forward metadata) m =
      ⟨entries.foldl (fun map entry => SortedMap.insert map entry.1 entry.2) m.map⟩ := by
  induction entries generalizing m with
  | nil => rfl
  | cons entry rest inductionHypothesis =>
    have step : Status.forward metadata m entry.1 = m.insertRaw entry.1 entry.2 := by
      simp only [Status.forward, unreserved entry List.mem_cons_self, Bool.false_eq_true, if_false,
        found entry List.mem_cons_self]
    rw [List.map_cons, List.foldl_cons, step]
    exact inductionHypothesis (fun other member => unreserved other (List.mem_cons_of_mem _ member))
      (fun other member => found other (List.mem_cons_of_mem _ member))

variable {status : Status} (authored : Authored status.metadata)

include authored in
private theorem trailerEntries_distinct : (status.trailerEntries.map Prod.fst).Nodup := by
  have wellformed := authored.wellformed
  have apart : ∀ key, startsWith key "grpc-" = true → key ∉ status.metadata.map.map Prod.fst := by
    intro key reserved member
    obtain ⟨entry, inside, rfl⟩ := List.mem_map.mp member
    rw [(unreserved_of_valid (wellformed.keys entry inside)).1] at reserved
    cases reserved
  have code := apart "grpc-status" (by decide)
  have message := apart "grpc-message" (by decide)
  have details := apart "grpc-status-details-bin" (by decide)
  have distinct := wellformed.sorted.nodup
  unfold Status.trailerEntries
  split <;> split <;>
    simp only [List.nil_append, List.cons_append, List.map_cons, List.nodup_cons, List.mem_cons,
      not_or]
  · exact ⟨code, distinct⟩
  · exact ⟨⟨by decide, code⟩, details, distinct⟩
  · exact ⟨⟨by decide, code⟩, message, distinct⟩
  · exact ⟨⟨by decide, by decide, code⟩, ⟨by decide, message⟩, details, distinct⟩

include authored in
/-- The trailers hold exactly these entries. -/
private theorem toTrailers_eq : ∃ trailers, status.toTrailers = .ok trailers ∧
    SortedMap.Sorted trailers.map ∧ trailers.map.Perm status.trailerEntries := by
  have wellformed := authored.wellformed
  refine ⟨⟨status.trailerEntries.foldl
    (fun map entry => SortedMap.insert map entry.1 entry.2) []⟩, ?_, ?_, ?_⟩
  · have forwarded := fun m => forward_run (m := m)
      (fun entry member => (unreserved_of_valid (wellformed.keys entry member)).1)
      (fun entry member => SortedMap.get?_of_mem wellformed.sorted member)
    unfold Status.toTrailers Status.trailerEntries
    simp only [Metadata.keys, forwarded, encodeGoogleRpcStatus_eq]
    by_cases silent : status.message = "" <;> by_cases plain : status.details = [] <;>
      simp [silent, plain, Metadata.insertRaw]
  · exact SortedMap.foldl_insert_sorted SortedMap.sorted_nil
  · have distinct := trailerEntries_distinct authored
    rw [← List.append_nil status.trailerEntries] at distinct
    exact (SortedMap.foldl_insert_perm distinct).trans (by rw [List.append_nil])

private theorem mem_trailerEntries {entry : String × List UInt8} :
    entry ∈ status.trailerEntries ↔
      entry = ("grpc-status", asBytes (toString status.code.asI32)) ∨
        (status.message ≠ "" ∧ entry = ("grpc-message", asBytes status.message)) ∨
          (status.details ≠ [] ∧ entry = ("grpc-status-details-bin", status.rpcBytes)) ∨
            entry ∈ status.metadata.map := by
  unfold Status.trailerEntries
  by_cases silent : status.message = "" <;> by_cases plain : status.details = [] <;>
    simp [silent, plain]

private theorem protocolKeys_valid :
    ∀ key ∈ protocolKeys, Metadata.validateKey key true = .ok () := by
  simp only [protocolKeys, List.mem_cons, List.not_mem_nil, or_false, forall_eq_or_imp, forall_eq]
  exact ⟨rfl, rfl, rfl⟩

private theorem details_binary : endsWith "grpc-status-details-bin" "-bin" = true := by decide

private theorem message_plain : endsWith "grpc-message" "-bin" = false := by decide

include authored in
private theorem trailerEntries_valid {entry : String × List UInt8}
    (member : entry ∈ status.trailerEntries) :
    Metadata.validateKey entry.1 true = .ok () ∧ Textual entry := by
  have text : ∀ (key text : String), Textual (key, asBytes text) :=
    fun _ text _ => by rw [fromUtf8Lossy_asBytes]
  rcases mem_trailerEntries.mp member with rfl | ⟨_, rfl⟩ | ⟨_, rfl⟩ | inside
  · exact ⟨protocolKeys_valid _ (by simp [protocolKeys]), text _ _⟩
  · exact ⟨protocolKeys_valid _ (by simp [protocolKeys]), text _ _⟩
  · refine ⟨protocolKeys_valid _ (by simp [protocolKeys]), fun plain => ?_⟩
    rw [details_binary] at plain
    cases plain
  · exact ⟨(unreserved_of_valid (authored.wellformed.keys entry inside)).2,
      fun plain => lossy_ascii (authored.wellformed.ascii entry inside plain)⟩

variable {base64 encode headerName} (laws : HeaderLaws base64 encode headerName)

include laws in
private theorem carried_code :
    carried encode headerName ("grpc-status", asBytes (toString status.code.asI32)) = true := by
  have textual : Textual ("grpc-status", asBytes (toString status.code.asI32)) := fun _ => by
    rw [fromUtf8Lossy_asBytes]
  refine (carried_iff laws textual).mpr ⟨laws.known _ (by simp [protocolKeys]), fun _ => ?_⟩
  cases status.code <;> decide

include laws in
private theorem carried_message_iff :
    carried encode headerName ("grpc-message", asBytes status.message) = true ↔
      (asBytes status.message).all visible = true := by
  have textual : Textual ("grpc-message", asBytes status.message) := fun _ => by
    rw [fromUtf8Lossy_asBytes]
  rw [carried_iff laws textual]
  exact ⟨fun both => both.2 message_plain,
    fun seen => ⟨laws.known _ (by simp [protocolKeys]), fun _ => seen⟩⟩

include laws in
private theorem carried_details (value : List UInt8) :
    carried encode headerName ("grpc-status-details-bin", value) = true := by
  have textual : Textual ("grpc-status-details-bin", value) := fun plain => by
    rw [details_binary] at plain
    cases plain
  refine (carried_iff laws textual).mpr ⟨laws.known _ (by simp [protocolKeys]), fun plain => ?_⟩
  rw [details_binary] at plain
  cases plain

include laws in
private theorem all_carried (message : (asBytes status.message).all visible = true)
    (metadata : ∀ entry ∈ status.metadata.map, carried encode headerName entry = true) :
    ∀ entry ∈ status.trailerEntries, carried encode headerName entry = true := by
  intro entry member
  rcases mem_trailerEntries.mp member with rfl | ⟨_, rfl⟩ | ⟨_, rfl⟩ | inside
  · exact carried_code laws
  · exact (carried_message_iff laws).mpr message
  · exact carried_details laws _
  · exact metadata entry inside

variable (encode headerName status) in
/-- What a client finds in the trailers that it received. -/
private structure Retrieved (received : Metadata) : Prop where
  lookup : ∀ key value, received.getBinary key = some value ↔
    (key, value) ∈ status.trailerEntries ∧ carried encode headerName (key, value) = true

omit authored in
private theorem retrieved {trailers : Metadata} (sorted : SortedMap.Sorted trailers.map)
    (same : trailers.map.Perm status.trailerEntries) :
    Retrieved encode headerName status ⟨trailers.map.filter (carried encode headerName)⟩ where
  lookup key value := by
    rw [Metadata.getBinary, SortedMap.get?_eq_some_iff (sorted.filter _), List.mem_filter,
      same.mem_iff]

variable {received : Metadata} (holds : Retrieved encode headerName status received)

include authored in
/-- Only the status itself speaks under a reserved key. -/
private theorem mem_reserved (key : String) (value : List UInt8)
    (reserved : startsWith key "grpc-" = true) :
    (key, value) ∈ status.trailerEntries ↔
      (key = "grpc-status" ∧ value = asBytes (toString status.code.asI32)) ∨
        (status.message ≠ "" ∧ key = "grpc-message" ∧ value = asBytes status.message) ∨
          (status.details ≠ [] ∧ key = "grpc-status-details-bin" ∧ value = status.rpcBytes) := by
  have absent : (key, value) ∉ status.metadata.map := by
    intro member
    rw [(unreserved_of_valid (authored.wellformed.keys _ member)).1] at reserved
    cases reserved
  simp [mem_trailerEntries, absent]

include laws holds in
private theorem received_code : (Status.fromTrailers received).code = status.code := by
  have found : received.getBinary "grpc-status" = some (asBytes (toString status.code.asI32)) :=
    (holds.lookup _ _).mpr ⟨mem_trailerEntries.mpr (.inl rfl), carried_code laws⟩
  exact Status.trailersCode_eq found

include laws authored holds in
private theorem received_message_iff :
    (Status.fromTrailers received).message = status.message ↔
      (asBytes status.message).all visible = true := by
  have read : (Status.fromTrailers received).message =
      ((received.getBinary "grpc-message").bind fromUtf8).getD "" := rfl
  have spoken := fun value => mem_reserved authored "grpc-message" value (by decide)
  cases found : received.getBinary "grpc-message" with
  | some value =>
    obtain ⟨member, kept⟩ := (holds.lookup _ _).mp found
    obtain ⟨_, rfl⟩ : status.message ≠ "" ∧ value = asBytes status.message := by
      simpa using (spoken value).mp member
    rw [read, found, Option.bind_some, fromUtf8_asBytes]
    exact iff_of_true rfl ((carried_message_iff laws).mp kept)
  | none =>
    rw [read, found]
    constructor
    · intro empty
      rw [← empty]
      rfl
    · intro seen
      by_cases silent : status.message = ""
      · exact silent.symm
      · have given := (holds.lookup "grpc-message" (asBytes status.message)).mpr
          ⟨mem_trailerEntries.mpr (.inr (.inl ⟨silent, rfl⟩)), (carried_message_iff laws).mpr seen⟩
        rw [found] at given
        cases given

include laws authored holds in
private theorem received_details_iff :
    (Status.fromTrailers received).details = status.details ↔
      status.details = [] ∨ status.DetailsFit := by
  have spoken := fun value => mem_reserved authored "grpc-status-details-bin" value (by decide)
  by_cases plain : status.details = []
  · have absent : received.getBinary "grpc-status-details-bin" = none := by
      refine Option.eq_none_iff_forall_ne_some.mpr fun value found => ?_
      have member := (spoken value).mp ((holds.lookup _ _).mp found).1
      simp [plain] at member
    simp [Status.fromTrailers, absent, plain]
  · have found : received.getBinary "grpc-status-details-bin" = some status.rpcBytes :=
      (holds.lookup _ _).mpr
        ⟨mem_trailerEntries.mpr (.inr (.inr (.inl ⟨plain, rfl⟩))), carried_details laws _⟩
    rw [← details_decode_iff status plain, Status.fromTrailers, found, Option.map_some]
    simp only [plain, false_or]
    cases decoded : decodeGoogleRpcStatus status.rpcBytes with
    | ok rpc => simp
    | err _ | panic | outOfFuel => simp [eq_comm, plain]

include authored holds in
private theorem received_metadata_iff :
    (∀ key, startsWith key "grpc-" = false →
        received.getBinary key = status.metadata.getBinary key) ↔
      ∀ entry ∈ status.metadata.map, carried encode headerName entry = true := by
  have wellformed := authored.wellformed
  constructor
  · intro same entry member
    have unreserved := (unreserved_of_valid (wellformed.keys entry member)).1
    have given : status.metadata.getBinary entry.1 = some entry.2 :=
      SortedMap.get?_of_mem wellformed.sorted member
    rw [← same entry.1 unreserved] at given
    exact ((holds.lookup _ _).mp given).2
  · intro all key unreserved
    refine Option.ext fun value => ?_
    have inside : status.metadata.getBinary key = some value ↔ (key, value) ∈ status.metadata.map :=
      SortedMap.get?_eq_some_iff wellformed.sorted
    rw [holds.lookup, inside, mem_trailerEntries]
    constructor
    · rintro ⟨same | ⟨_, same⟩ | ⟨_, same⟩ | member, _⟩
      · cases same
        cases unreserved
      · cases same
        cases unreserved
      · cases same
        cases unreserved
      · exact member
    · intro member
      exact ⟨.inr (.inr (.inr member)), all _ member⟩

end Trailers

section Survival

variable {base64 encode headerName}

/-- A status comes back exactly if headers can carry it. -/
theorem status_survives_iff (laws : HeaderLaws base64 encode headerName) (status : Status)
    (authored : Authored status.metadata) :
    status.Survives base64 encode headerName capacity ↔ status.Carriable headerName capacity := by
  obtain ⟨trailers, built, sorted, same⟩ := toTrailers_eq authored
  have valid : ∀ entry ∈ trailers.map, Metadata.validateKey entry.1 true = .ok () ∧ Textual entry :=
    fun entry member => trailerEntries_valid authored (same.mem_iff.mp member)
  have received_iff := parse_headers_eq laws sorted
    (fun entry member => (valid entry member).1) (fun entry member => (valid entry member).2) usizeMax
  have holds : Retrieved encode headerName status _ := retrieved sorted same
  have message := received_message_iff authored laws holds
  have details := received_details_iff authored laws holds
  have metadata := (received_metadata_iff authored holds).trans (carried_metadata_iff laws authored)
  have whole : (∀ entry ∈ status.trailerEntries, carried encode headerName entry = true) →
      (trailers.map.filterMap (headerOf encode headerName)).length =
          status.trailerEntries.length ∧
        Metadata.totalSize ⟨trailers.map.filter (carried encode headerName)⟩ =
          Metadata.totalSize ⟨status.trailerEntries⟩ := by
    intro all
    have kept : ∀ entry ∈ trailers.map, carried encode headerName entry = true :=
      fun entry member => all entry (same.mem_iff.mp member)
    rw [headers_length encode headerName kept, List.filter_eq_self.mpr kept]
    exact ⟨same.length_eq, (same.map _).sum_nat⟩
  constructor
  · rintro ⟨_, headers, received, again, mapped, parsed, agrees⟩
    rw [built] at again
    cases again
    rw [toHeaderMap_eq] at mapped
    split at mapped
    · rename_i room
      cases mapped
      obtain ⟨rfl, size⟩ := (received_iff received).mp parsed
      have seen := message.mp agrees.message
      have entries := (received_metadata_iff authored holds).mp agrees.metadata
      obtain ⟨count, total⟩ := whole (all_carried laws seen entries)
      rw [count] at room
      rw [total] at size
      obtain ⟨names, values⟩ := metadata.mp agrees.metadata
      exact ⟨seen, values, names, details.mp agrees.details, room, size⟩
    · cases mapped
  · intro carriable
    have back := metadata.mpr ⟨carriable.names, carriable.values⟩
    obtain ⟨count, total⟩ := whole
      (all_carried laws carriable.message ((received_metadata_iff authored holds).mp back))
    refine ⟨trailers, _, _, built, ?_, (received_iff _).mpr ⟨rfl, ?_⟩, received_code laws holds,
      message.mpr carriable.message, details.mpr carriable.details, back⟩
    · rw [toHeaderMap_eq, if_pos]
      rw [count]
      exact carriable.room
    · rw [total]
      exact carriable.size

end Survival

section Samples

/-- A status with details, a text and a binary value. -/
private def missingRow : Status where
  code := .notFound
  message := "no such row"
  details := [⟨"type.googleapis.com/Row", [8, 1]⟩]
  metadata := ⟨[("row", asBytes "7"), ("trace-bin", [0, 255])]⟩

private theorem missingRow_authored : Authored missingRow.metadata :=
  .binary (.text .empty "row" "7" rfl) "trace-bin" [0, 255] rfl

theorem status_survives_missingRow :
    missingRow.Survives sampleBase64 sampleEncode sampleName 24576 :=
  (status_survives_iff 24576 sampleLaws missingRow missingRow_authored).mpr
    ⟨by decide, by decide, by decide, .inr ⟨by decide, by decide, by decide, by decide⟩, by decide,
      by decide⟩

private def accented : Status := .new .notFound "caf\u00e9"

/-- A message with an accent gets no header. -/
theorem not_status_survives_accent : Authored accented.metadata ∧
    ¬ accented.Survives sampleBase64 sampleEncode sampleName 24576 := by
  refine ⟨.empty, ?_⟩
  rintro ⟨trailers, headers, received, built, mapped, parsed, agrees⟩
  have sent : accented.toTrailers =
      .ok ⟨[("grpc-message", asBytes "caf\u00e9"), ("grpc-status", asBytes "5")]⟩ := rfl
  rw [sent] at built
  cases built
  have given : Metadata.toHeaderMap sampleEncode sampleName 24576
      ⟨[("grpc-message", asBytes "caf\u00e9"), ("grpc-status", asBytes "5")]⟩ =
        .ok [("grpc-status", asBytes "5")] := by decide
  rw [given] at mapped
  cases mapped
  have back : Metadata.fromTrailers sampleBase64
      (headersToPairs [("grpc-status", asBytes "5")]) usizeMax =
        .ok ⟨[("grpc-status", asBytes "5")]⟩ := rfl
  rw [back] at parsed
  cases parsed
  have message : (Status.fromTrailers ⟨[("grpc-status", asBytes "5")]⟩).message = "" := rfl
  have same := agrees.message
  rw [message] at same
  exact absurd same (by decide)

end Samples

end TptProto.Grpc
