import TptProto.Foundation.SortedMap
import TptProto.Grpc.Context

/-! Which request headers arrive in the metadata of the context. -/

namespace TptProto.Grpc

open TptProto.Core TptProto.Foundation

variable (base64 : Base64)

/-- A header with a key and a value that metadata admit: the key and the bytes it stands for. -/
def validPair (header : String × List UInt8) : Option (String × List UInt8) :=
  match Metadata.validateKey header.1 false, toStr header.2 with
  | .ok _, some text =>
    match Metadata.receivedValue base64 header.1 text with
    | .ok value => some (header.1, value)
    | .error _ => none
  | _, _ => none

/-- The headers that the loop keeps for itself under keys that metadata would admit. -/
def consumedHeader (name : String) : Bool :=
  name = "content-type" || name = "te" || name = "user-agent"

/-- The valid pairs of the counted names, in order. -/
def validPairs (counted : String → Bool) (headers : HeaderMap) : List (String × List UInt8) :=
  (headers.filter fun header => counted header.1).filterMap (validPair base64)

/-- Their size, a repeated key counted once. -/
def validSize (counted : String → Bool) (headers : HeaderMap) : Nat :=
  Metadata.totalSize ⟨(validPairs base64 counted headers).foldl
    (fun map pair => SortedMap.insert map pair.1 pair.2) []⟩

variable (now : SystemTime) (headers : HeaderMap) (peerAddr : String)
  (peerCertificate : Option PeerCertificate) (max : Nat)

/-- No panic; within the limit every counted pair is there with its last value, and beyond
it no context is returned. -/
structure NeverLost (counted : String → Bool) : Prop where
  returns : buildContext base64 now headers peerAddr peerCertificate max ≠ .panic
  present : validSize base64 counted headers ≤ max → ∃ ctx encoding,
    buildContext base64 now headers peerAddr peerCertificate max = .ok (ctx, encoding) ∧
      ∀ key value, LastGiven (validPairs base64 counted headers) key value →
        ctx.metadata.getBinary key = some value
  rejected : max < validSize base64 counted headers → ∀ ctx encoding,
    buildContext base64 now headers peerAddr peerCertificate max ≠ .ok (ctx, encoding)

/-- Every timeout that can be parsed ends at a time that can be represented. -/
def DeadlinesFit : Prop :=
  ∀ header ∈ headers, header.1 = "grpc-timeout" → ∀ v, toStr header.2 = some v →
    ∀ d, parseTimeout v = .ok d → now.add d ≠ none

/-- Whether the loop hands a header on to the metadata. -/
def routed (name : String) : Bool :=
  !(skippedHeader name || name = "grpc-timeout" || name = "grpc-encoding" || name = "user-agent")

/-- Every textual header that is handed on is one that metadata admit. -/
def AllValid : Prop :=
  ∀ header ∈ headers, routed header.1 = true → toStr header.2 ≠ none →
    validPair base64 header ≠ none

/-- The headers for which nothing is lost. -/
structure NothingLost : Prop where
  deadlines : DeadlinesFit now headers
  within : validSize base64 (fun name => !consumedHeader name) headers ≤ max
  valid : AllValid base64 headers ∨ validPairs base64 (fun name => !consumedHeader name) headers = []

section Loop

def routedPairs : List (String × String) :=
  headers.filterMap fun header =>
    if routed header.1 then (toStr header.2).map fun text => (header.1, text) else none

private theorem skippedHeader_timeout : skippedHeader "grpc-timeout" = false := by decide

/-- One header either panics on its deadline or adds its routed pair. -/
private theorem gather_spec (gathered : Gathered) (header : String × List UInt8) :
    (DeadlinesFit now [header] → ∃ next, gather now gathered header = .ok next ∧
        next.metadataPairs = gathered.metadataPairs ++ routedPairs [header]) ∧
      (¬ DeadlinesFit now [header] → gather now gathered header = .panic) := by
  obtain ⟨name, value⟩ := header
  unfold gather DeadlinesFit routedPairs routed
  cases skipped : skippedHeader name with
  | true =>
    have other : name ≠ "grpc-timeout" := by
      rintro rfl
      rw [skippedHeader_timeout] at skipped
      cases skipped
    simp [other, skipped]
  | false =>
    cases text : toStr value with
    | none => simp [text]
    | some v =>
      by_cases timeout : name = "grpc-timeout"
      · cases parsed : parseTimeout v with
        | error e => simp [timeout, text, parsed, skippedHeader_timeout]
        | ok d =>
          cases sum : now.add d with
          | none => simp [timeout, text, parsed, sum]
          | some deadline => simp [timeout, text, parsed, sum]
      · by_cases encoding : name = "grpc-encoding"
        · simp [encoding]
        · by_cases agent : name = "user-agent"
          · simp [agent]
          · simp [timeout, encoding, agent, skipped, text]

private theorem deadlinesFit_cons {header : String × List UInt8} {rest : HeaderMap} :
    DeadlinesFit now (header :: rest) ↔ DeadlinesFit now [header] ∧ DeadlinesFit now rest := by
  simp [DeadlinesFit]

private theorem gather_run (gathered : Gathered) :
    (DeadlinesFit now headers → ∃ last, headers.foldlM (gather now) gathered = .ok last ∧
        last.metadataPairs = gathered.metadataPairs ++ routedPairs headers) ∧
      (¬ DeadlinesFit now headers → headers.foldlM (gather now) gathered = .panic) := by
  induction headers generalizing gathered with
  | nil => simp [DeadlinesFit, routedPairs]
  | cons header rest inductionHypothesis =>
    rw [deadlinesFit_cons, List.foldlM_cons]
    obtain ⟨moves, panics⟩ := gather_spec now gathered header
    by_cases here : DeadlinesFit now [header]
    · obtain ⟨next, moved, added⟩ := moves here
      obtain ⟨ends, fails⟩ := inductionHypothesis next
      rw [moved, Outcome.ok_bind]
      constructor
      · rintro ⟨_, later⟩
        obtain ⟨last, run, pairs⟩ := ends later
        refine ⟨last, run, ?_⟩
        rw [pairs, added, List.append_assoc, routedPairs, routedPairs, ← List.filterMap_append]
        rfl
      · intro unfit
        exact fails fun later => unfit ⟨here, later⟩
    · rw [panics here]
      exact ⟨fun fit => (here fit.1).elim, fun _ => rfl⟩

end Loop

section Received

/-- The valid pairs among texts under their keys. -/
private def receivedPair (header : String × String) : Option (String × List UInt8) :=
  match Metadata.validateKey header.1 false with
  | .ok _ =>
    match Metadata.receivedValue base64 header.1 header.2 with
    | .ok value => some (header.1, value)
    | .error _ => none
  | .error _ => none

private theorem receive_eq (metadata : Metadata) {header : String × String} :
    (∀ pair, receivedPair base64 header = some pair →
        Metadata.receive base64 false metadata header =
          .ok ⟨SortedMap.insert metadata.map pair.1 pair.2⟩) ∧
      (receivedPair base64 header = none →
        ∃ e, Metadata.receive base64 false metadata header = .error e) := by
  unfold receivedPair Metadata.receive
  cases Metadata.validateKey header.1 false with
  | error e => exact ⟨nofun, fun _ => ⟨e, rfl⟩⟩
  | ok =>
    cases Metadata.receivedValue base64 header.1 header.2 with
    | error e => exact ⟨nofun, fun _ => ⟨e, rfl⟩⟩
    | ok value =>
      refine ⟨fun pair same => ?_, nofun⟩
      cases same
      rfl

/-- Either every header is received, or the whole list is refused. -/
private theorem receive_run (pairs : List (String × String)) (metadata : Metadata) :
    ((∀ pair ∈ pairs, receivedPair base64 pair ≠ none) →
        pairs.foldlM (Metadata.receive base64 false) metadata =
          .ok ⟨(pairs.filterMap (receivedPair base64)).foldl
            (fun map pair => SortedMap.insert map pair.1 pair.2) metadata.map⟩) ∧
      (¬ (∀ pair ∈ pairs, receivedPair base64 pair ≠ none) →
        ∃ e, pairs.foldlM (Metadata.receive base64 false) metadata = .error e) := by
  induction pairs generalizing metadata with
  | nil => simp [pure, Except.pure]
  | cons pair rest inductionHypothesis =>
    rw [List.foldlM_cons]
    cases received : receivedPair base64 pair with
    | none =>
      obtain ⟨e, failed⟩ := (receive_eq base64 metadata).2 received
      rw [failed]
      exact ⟨fun all => (all pair List.mem_cons_self received).elim, fun _ => ⟨e, rfl⟩⟩
    | some entry =>
      rw [(receive_eq base64 metadata).1 entry received]
      obtain ⟨accepts, refuses⟩ :=
        inductionHypothesis ⟨SortedMap.insert metadata.map entry.1 entry.2⟩
      constructor
      · intro all
        rw [List.filterMap_cons_some received]
        exact accepts fun other member => all other (List.mem_cons_of_mem _ member)
      · intro some'
        apply refuses
        intro all
        apply some'
        intro other member
        rcases List.mem_cons.mp member with rfl | later
        · rw [received]
          exact Option.some_ne_none _
        · exact all other later

end Received

section Routing

private theorem consumed_not_routed {name : String} (consumed : consumedHeader name = true) :
    routed name = false := by
  simp only [consumedHeader, Bool.or_eq_true, decide_eq_true_eq] at consumed
  rcases consumed with (rfl | rfl) | rfl <;> decide

private theorem validateKey_of_reserved {key : String} (nonempty : key ≠ "")
    (reserved : startsWith key "grpc-" = true ∨ startsWith key ":" = true) :
    Metadata.validateKey key false = .error s!"reserved metadata key `{key}`" := by
  rcases reserved with reserved | reserved <;> simp [Metadata.validateKey, nonempty, reserved]

/-- Metadata admit no key that the loop takes for the protocol. -/
private theorem validPair_of_not_routed {header : String × List UInt8}
    (stays : routed header.1 = false) (other : consumedHeader header.1 = false) :
    validPair base64 header = none := by
  have invalid : ∃ e, Metadata.validateKey header.1 false = .error e := by
    obtain ⟨name, value⟩ := header
    simp only [routed, skippedHeader, Bool.not_eq_false', Bool.or_eq_true, decide_eq_true_eq] at stays
    simp only [consumedHeader, Bool.or_eq_false_iff, decide_eq_false_iff_not] at other
    rcases stays with (((((colon | type) | te) | timeout) | encoding) | agent)
    · refine ⟨_, validateKey_of_reserved ?_ (.inr colon)⟩
      rintro rfl
      revert colon
      decide
    · exact (other.1.1 type).elim
    · exact (other.1.2 te).elim
    · subst timeout
      show ∃ e, Metadata.validateKey "grpc-timeout" false = .error e
      exact ⟨_, validateKey_of_reserved (by decide) (.inl (by decide))⟩
    · subst encoding
      show ∃ e, Metadata.validateKey "grpc-encoding" false = .error e
      exact ⟨_, validateKey_of_reserved (by decide) (.inl (by decide))⟩
    · exact (other.2 agent).elim
  obtain ⟨e, invalid⟩ := invalid
  simp [validPair, invalid]

private theorem receivedPair_of_text {header : String × List UInt8} {text : String}
    (shown : toStr header.2 = some text) :
    receivedPair base64 (header.1, text) = validPair base64 header := by
  unfold receivedPair validPair
  rw [shown]
  cases Metadata.validateKey header.1 false <;> rfl

private theorem validPair_of_opaque {header : String × List UInt8} (hidden : toStr header.2 = none) :
    validPair base64 header = none := by
  unfold validPair
  rw [hidden]
  cases Metadata.validateKey header.1 false <;> rfl

private theorem received_routed : (routedPairs headers).filterMap (receivedPair base64) =
    validPairs base64 (fun name => !consumedHeader name) headers := by
  rw [validPairs, routedPairs, List.filterMap_filterMap, List.filterMap_filter]
  congr 1
  funext header
  cases stays : routed header.1 with
  | false =>
    cases consumed : consumedHeader header.1 with
    | true => rfl
    | false =>
      simp only [validPair_of_not_routed base64 stays consumed]
      rfl
  | true =>
    have other : consumedHeader header.1 = false := by
      cases consumed : consumedHeader header.1 with
      | false => rfl
      | true => exact absurd stays (by rw [consumed_not_routed consumed]; decide)
    cases shown : toStr header.2 with
    | none =>
      simp only [other, validPair_of_opaque base64 shown]
      rfl
    | some text =>
      simp only [other, ← receivedPair_of_text base64 shown]
      rfl

private theorem allValid_iff : AllValid base64 headers ↔
    ∀ pair ∈ routedPairs headers, receivedPair base64 pair ≠ none := by
  constructor
  · intro valid pair member
    obtain ⟨header, inside, shown⟩ := List.mem_filterMap.mp member
    split at shown
    · rename_i goes
      obtain ⟨text, visible, rfl⟩ := Option.map_eq_some_iff.mp shown
      rw [receivedPair_of_text base64 visible]
      exact valid header inside goes (by rw [visible]; exact Option.some_ne_none _)
    · cases shown
  · intro all header inside goes visible
    obtain ⟨text, shown⟩ := Option.ne_none_iff_exists'.mp visible
    rw [← receivedPair_of_text base64 shown]
    apply all
    exact List.mem_filterMap.mpr ⟨header, inside, by rw [if_pos goes, shown]; rfl⟩

end Routing

section Lookup

private theorem insertAll_sorted (pairs map : List (String × List UInt8))
    (sorted : SortedMap.Sorted map) :
    SortedMap.Sorted (pairs.foldl (fun map pair => SortedMap.insert map pair.1 pair.2) map) := by
  induction pairs generalizing map with
  | nil => exact sorted
  | cons pair rest inductionHypothesis =>
    exact inductionHypothesis _ (sorted.insert pair.1 pair.2)

private theorem get?_insertAll_of_absent {pairs map : List (String × List UInt8)}
    (sorted : SortedMap.Sorted map) {key : String} (absent : ∀ pair ∈ pairs, pair.1 ≠ key) :
    SortedMap.get? (pairs.foldl (fun map pair => SortedMap.insert map pair.1 pair.2) map) key =
      SortedMap.get? map key := by
  induction pairs generalizing map with
  | nil => rfl
  | cons pair rest inductionHypothesis =>
    rw [List.foldl_cons, inductionHypothesis (sorted.insert pair.1 pair.2)
      (fun other member => absent other (List.mem_cons_of_mem _ member)),
      SortedMap.get?_insert sorted, if_neg (Ne.symm (absent pair List.mem_cons_self))]

/-- Inserting pairs one after another leaves each key with its last value. -/
private theorem get?_insertAll {pairs map : List (String × List UInt8)}
    (sorted : SortedMap.Sorted map) {key : String} {value : List UInt8}
    (given : LastGiven pairs key value) :
    SortedMap.get? (pairs.foldl (fun map pair => SortedMap.insert map pair.1 pair.2) map) key =
      some value := by
  obtain ⟨before, after, rfl, absent⟩ := given
  have before_sorted := insertAll_sorted before map sorted
  rw [List.foldl_append, List.foldl_cons,
    get?_insertAll_of_absent (before_sorted.insert key value) absent,
    SortedMap.get?_insert before_sorted, if_pos rfl]

end Lookup

section Context

/-- The map of all valid pairs that are handed on. -/
private def allPairs : Metadata :=
  ⟨(validPairs base64 (fun name => !consumedHeader name) headers).foldl
    (fun map pair => SortedMap.insert map pair.1 pair.2) []⟩

private theorem buildContext_of_unfit (unfit : ¬ DeadlinesFit now headers) :
    buildContext base64 now headers peerAddr peerCertificate max = .panic := by
  simp only [buildContext, (gather_run now headers {}).2 unfit, Outcome.panic_bind]

/-- The context of headers whose deadlines fit: all valid pairs, or none at all. -/
private theorem buildContext_of_fit (fit : DeadlinesFit now headers) :
    ∃ ctx encoding, buildContext base64 now headers peerAddr peerCertificate max =
        .ok (ctx, encoding) ∧
      (AllValid base64 headers →
        validSize base64 (fun name => !consumedHeader name) headers ≤ max →
        ctx.metadata = allPairs base64 headers) ∧
      (¬ AllValid base64 headers → ctx.metadata = {}) ∧
      (ctx.metadata = allPairs base64 headers ∨ ctx.metadata = {}) := by
  obtain ⟨last, run, pairs⟩ := (gather_run now headers {}).1 fit
  rw [List.nil_append] at pairs
  refine ⟨_, _, by rw [buildContext, run]; rfl, ?_, ?_, ?_⟩
  · intro valid within
    have accepted := (receive_run base64 (routedPairs headers) {}).1
      ((allValid_iff base64 headers).mp valid)
    rw [received_routed] at accepted
    rw [validSize] at within
    simp only [pairs, Metadata.fromHeaders, Metadata.parse, accepted, bind, Except.bind]
    rw [if_neg (Nat.not_lt.mpr within)]
    rfl
  · intro invalid
    obtain ⟨e, refused⟩ := (receive_run base64 (routedPairs headers) {}).2
      (mt (allValid_iff base64 headers).mpr invalid)
    simp only [pairs, Metadata.fromHeaders, Metadata.parse, refused, bind, Except.bind]
    rfl
  · by_cases valid : AllValid base64 headers
    · have accepted := (receive_run base64 (routedPairs headers) {}).1
        ((allValid_iff base64 headers).mp valid)
      rw [received_routed] at accepted
      simp only [pairs, Metadata.fromHeaders, Metadata.parse, accepted, bind, Except.bind]
      split
      · exact .inr rfl
      · exact .inl rfl
    · obtain ⟨e, refused⟩ := (receive_run base64 (routedPairs headers) {}).2
        (mt (allValid_iff base64 headers).mpr valid)
      simp only [pairs, Metadata.fromHeaders, Metadata.parse, refused, bind, Except.bind]
      exact .inr rfl

private theorem neverLost_own_iff :
    NeverLost base64 now headers peerAddr peerCertificate max (fun name => !consumedHeader name) ↔
      NothingLost base64 now headers max := by
  constructor
  · intro never
    have fit : DeadlinesFit now headers := Classical.byContradiction fun unfit =>
      never.returns (buildContext_of_unfit base64 now headers peerAddr peerCertificate max unfit)
    obtain ⟨ctx, encoding, built, _, empty, _⟩ :=
      buildContext_of_fit base64 now headers peerAddr peerCertificate max fit
    have within : validSize base64 (fun name => !consumedHeader name) headers ≤ max :=
      Nat.le_of_not_lt fun large => never.rejected large ctx encoding built
    refine ⟨fit, within, ?_⟩
    by_cases valid : AllValid base64 headers
    · exact .inl valid
    · right
      obtain ⟨ctx', encoding', built', present⟩ := never.present within
      rw [built] at built'
      cases built'
      apply List.eq_nil_iff_forall_not_mem.mpr
      rintro ⟨key, value⟩ member
      obtain ⟨last, given⟩ := exists_lastGiven member
      have found := present key last given
      rw [empty valid] at found
      cases found
  · rintro ⟨fit, within, valid⟩
    obtain ⟨ctx, encoding, built, all, _, _⟩ :=
      buildContext_of_fit base64 now headers peerAddr peerCertificate max fit
    refine ⟨by rw [built]; nofun, fun _ => ⟨ctx, encoding, built, ?_⟩,
      fun large => (Nat.not_le_of_lt large within).elim⟩
    intro key value given
    rcases valid with valid | none
    · rw [all valid within]
      exact get?_insertAll SortedMap.sorted_nil given
    · rw [none] at given
      exact absurd given.mem List.not_mem_nil

private theorem consumed_validPair {header : String × List UInt8} {text : String}
    (consumed : consumedHeader header.1 = true) (shown : toStr header.2 = some text) :
    ∃ value, validPair base64 header = some (header.1, value) := by
  have valid : Metadata.validateKey header.1 false = .ok () ∧ endsWith header.1 "-bin" = false := by
    simp only [consumedHeader, Bool.or_eq_true, decide_eq_true_eq] at consumed
    rcases consumed with (same | same) | same <;> rw [same] <;> exact ⟨rfl, by decide⟩
  exact ⟨asBytes text, by simp [validPair, valid.1, shown, Metadata.receivedValue, valid.2]⟩

/-- Without textual headers under consumed keys, counting them makes no difference. -/
private theorem validPairs_all (unread : ∀ header ∈ headers, consumedHeader header.1 = true →
    toStr header.2 = none) :
    validPairs base64 (fun _ => true) headers =
      validPairs base64 (fun name => !consumedHeader name) headers := by
  induction headers with
  | nil => rfl
  | cons header rest inductionHypothesis =>
    have later := inductionHypothesis fun other member =>
      unread other (List.mem_cons_of_mem _ member)
    let own (header : String × List UInt8) : Bool := !consumedHeader header.1
    change (rest.filter fun _ => true).filterMap _ = (rest.filter own).filterMap _ at later
    change ((header :: rest).filter fun _ => true).filterMap _ =
      ((header :: rest).filter own).filterMap _
    cases consumed : consumedHeader header.1 with
    | true =>
      have unseen := validPair_of_opaque base64 (unread header List.mem_cons_self consumed)
      have dropped : ¬ own header = true := by
        unfold own
        rw [consumed]
        decide
      rw [List.filter_cons_of_pos rfl, List.filterMap_cons_none unseen, later,
        List.filter_cons_of_neg dropped]
    | false =>
      have kept : own header = true := by
        unfold own
        rw [consumed]
        rfl
      rw [List.filter_cons_of_pos rfl, List.filterMap_cons, later, ← List.filterMap_cons,
        List.filter_cons_of_pos kept]

private theorem consumed_not_in_context {key : String} (consumed : consumedHeader key = true) :
    (allPairs base64 headers).getBinary key = none := by
  rw [Metadata.getBinary, allPairs, get?_insertAll_of_absent SortedMap.sorted_nil]
  · rfl
  · rintro pair member rfl
    obtain ⟨header, inside, shown⟩ := List.mem_filterMap.mp member
    have own := (List.mem_filter.mp inside).2
    have same : pair.1 = header.1 := by
      unfold validPair at shown
      split at shown
      · split at shown <;> cases shown
        rfl
      · cases shown
    rw [same] at consumed
    simp [consumed] at own

/-- Counting the consumed keys too, nothing is lost only if no header carries them. -/
private theorem neverLost_all_iff :
    NeverLost base64 now headers peerAddr peerCertificate max (fun _ => true) ↔
      (∀ header ∈ headers, consumedHeader header.1 = true → toStr header.2 = none) ∧
        NothingLost base64 now headers max := by
  have same (unread : ∀ header ∈ headers, consumedHeader header.1 = true →
      toStr header.2 = none) :
      NeverLost base64 now headers peerAddr peerCertificate max (fun _ => true) ↔
        NothingLost base64 now headers max := by
    rw [← neverLost_own_iff base64 now headers peerAddr peerCertificate max]
    have pairs := validPairs_all base64 headers unread
    have size : validSize base64 (fun _ => true) headers =
        validSize base64 (fun name => !consumedHeader name) headers := by
      rw [validSize, validSize, pairs]
    constructor
    · rintro ⟨returns, present, rejected⟩
      rw [size, pairs] at present
      rw [size] at rejected
      exact ⟨returns, present, rejected⟩
    · rintro ⟨returns, present, rejected⟩
      rw [← size, ← pairs] at present
      rw [← size] at rejected
      exact ⟨returns, present, rejected⟩
  constructor
  · intro never
    have unread : ∀ header ∈ headers, consumedHeader header.1 = true → toStr header.2 = none := by
      intro header member consumed
      cases shown : toStr header.2 with
      | none => rfl
      | some text =>
        have fit : DeadlinesFit now headers := Classical.byContradiction fun unfit =>
          never.returns (buildContext_of_unfit base64 now headers peerAddr peerCertificate max unfit)
        obtain ⟨ctx, encoding, built, _, _, either⟩ :=
          buildContext_of_fit base64 now headers peerAddr peerCertificate max fit
        have within := Nat.le_of_not_lt fun large => never.rejected large ctx encoding built
        obtain ⟨ctx', encoding', built', present⟩ := never.present within
        rw [built] at built'
        cases built'
        obtain ⟨value, valid⟩ := consumed_validPair base64 consumed shown
        have counted : (header.1, value) ∈ validPairs base64 (fun _ => true) headers :=
          List.mem_filterMap.mpr ⟨header, List.mem_filter.mpr ⟨member, rfl⟩, valid⟩
        obtain ⟨last, given⟩ := exists_lastGiven counted
        have found := present _ _ given
        rcases either with all | empty
        · rw [all, consumed_not_in_context base64 headers consumed] at found
          cases found
        · rw [empty] at found
          cases found
    exact ⟨unread, (same unread).mp never⟩
  · rintro ⟨unread, nothing⟩
    exact (same unread).mpr nothing

end Context

/-- No request header is lost exactly when every deadline can be represented, the metadata
are within the limit, and all of the headers handed on are valid or none is. To count the keys
that the loop consumes as well, no header may carry one of them. -/
theorem requestMetadata_iff :
    (NeverLost base64 now headers peerAddr peerCertificate max (fun name => !consumedHeader name) ↔
        NothingLost base64 now headers max) ∧
      (NeverLost base64 now headers peerAddr peerCertificate max (fun _ => true) ↔
        (∀ header ∈ headers, consumedHeader header.1 = true → toStr header.2 = none) ∧
          NothingLost base64 now headers max) :=
  ⟨neverLost_own_iff base64 now headers peerAddr peerCertificate max,
    neverLost_all_iff base64 now headers peerAddr peerCertificate max⟩

/-- The headers of an authorized call by a client that also names its encodings. -/
def authorizedHeaders : HeaderMap :=
  [("authorization", asBytes "Bearer t"), ("grpc-accept-encoding", asBytes "gzip")]

/-- The authorization vanishes because of the other header, and a long timeout panics. -/
theorem not_requestMetadata_authorized :
    ¬ NeverLost (fun _ => .ok []) ⟨1700000000, 0⟩ authorizedHeaders "peer" none 8192
        (fun name => !consumedHeader name) ∧
      buildContext (fun _ => .ok []) ⟨1700000000, 0⟩
        [("grpc-timeout", asBytes "9223372036854775807S")] "peer" none 8192 = .panic := by
  constructor
  · intro never
    obtain ⟨ctx, encoding, built, present⟩ := never.present (by decide)
    have empty : ctx.metadata = {} := by
      cases built
      rfl
    have found := present "authorization" (asBytes "Bearer t") ⟨[], [], by decide, nofun⟩
    rw [empty] at found
    cases found
  · decide

end TptProto.Grpc
