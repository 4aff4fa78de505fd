import TptProto.Grpc.FrameSplit
import TptProto.Grpc.StreamErrors

/-! Whether a response stream yields the same items however often it has to wait. -/

namespace TptProto.Grpc

open TptProto.Core TptProto.Foundation

section Yields

variable {σ : Type} (poll : σ → Polled × σ)

/-- Polled again and again, a stream yields these items, the end of the stream among them. -/
inductive Yields : σ → List (Option (Except Status (List UInt8))) → Prop where
  | start {s : σ} : Yields s []
  | pending {s next : σ} {items : List (Option (Except Status (List UInt8)))}
      (polled : poll s = (.pending, next)) (later : Yields next items) : Yields s items
  | item {s next : σ} {item : Option (Except Status (List UInt8))}
      {items : List (Option (Except Status (List UInt8)))}
      (polled : poll s = (.ready item, next)) (later : Yields next items) : Yields s (item :: items)

/-- Two states from which the same items are yielded. -/
def SameItems (s t : σ) : Prop := ∀ items, Yields poll s items ↔ Yields poll t items

variable {poll} {s t next : σ} {item : Option (Except Status (List UInt8))}
variable {items : List (Option (Except Status (List UInt8)))}

theorem yields_pending (polled : poll s = (.pending, next)) :
    Yields poll s items ↔ Yields poll next items := by
  constructor
  · intro yields
    cases yields with
    | start => exact .start
    | pending polled' later =>
      rw [polled] at polled'
      cases polled'
      exact later
    | item polled' _ =>
      rw [polled] at polled'
      cases polled'
  · exact .pending polled

theorem yields_item {first : Option (Except Status (List UInt8))}
    (polled : poll s = (.ready first, next)) :
    Yields poll s (item :: items) ↔ item = first ∧ Yields poll next items := by
  constructor
  · intro yields
    cases yields with
    | pending polled' _ =>
      rw [polled] at polled'
      cases polled'
    | item polled' later =>
      rw [polled] at polled'
      cases polled'
      exact ⟨rfl, later⟩
  · rintro ⟨rfl, later⟩
    exact .item polled later

theorem yields_congr (same : poll s = poll t) : Yields poll s items ↔ Yields poll t items := by
  cases polled : poll t with
  | mk answer next =>
    cases answer with
    | pending => rw [yields_pending (same.trans polled), yields_pending polled]
    | ready first =>
      cases items with
      | nil => exact ⟨fun _ => .start, fun _ => .start⟩
      | cons item items => rw [yields_item (same.trans polled), yields_item polled]

/-- A stream yields one item at a time. -/
theorem Yields.unique {items' : List (Option (Except Status (List UInt8)))}
    (yields : Yields poll s items) (other : Yields poll s items')
    (length : items.length = items'.length) : items = items' := by
  induction yields generalizing items' with
  | start => exact (List.eq_nil_of_length_eq_zero length.symm).symm
  | pending polled _ inductionHypothesis =>
    exact inductionHypothesis ((yields_pending polled).mp other) length
  | item polled _ inductionHypothesis =>
    cases items' with
    | nil => cases length
    | cons item' items' =>
      obtain ⟨rfl, later⟩ := (yields_item polled).mp other
      rw [inductionHypothesis later (Nat.succ.inj length)]

end Yields

section Whole

variable {codec : GzipCodec} {wording : Wording} {encoding : Compression} {max : Nat}
variable {buf rest : List UInt8} {item : Except Status (List UInt8)}

/-- Bytes that are whole frames, each within the maximum. -/
def WholeFrames (max : Nat) (bytes : List UInt8) : Prop :=
  ∃ frames : List (List UInt8), bytes = frames.flatten ∧
    ∀ frame ∈ frames, IsFrame frame ∧ declaredLength frame ≤ max

/-- A frame that is taken off the front is within the maximum, or stays where it is. -/
theorem takeFrame_cases (taken : takeFrame codec wording encoding max buf = some (item, rest)) :
    (max < declaredLength buf ∧ rest = buf) ∨
      ∃ frame, IsFrame frame ∧ declaredLength frame ≤ max ∧ buf = frame ++ rest := by
  unfold takeFrame at taken
  split at taken
  · simp only at taken
    split at taken
    · rename_i large
      cases taken
      exact .inl ⟨large, rfl⟩
    · rename_i small
      split at taken
      · rename_i long
        have one := isFrame_take long
        have same := one.length_eq (buf.drop (5 + declaredLength buf))
        rw [List.take_append_drop] at same
        have declared := one.length_eq []
        rw [List.append_nil, same] at declared
        have split : buf = buf.take (5 + declaredLength buf) ++ buf.drop (5 + declaredLength buf) :=
          (List.take_append_drop _ _).symm
        have within : declaredLength (buf.take (5 + declaredLength buf)) ≤ max := by omega
        split at taken
        · cases taken
          exact .inr ⟨_, one, within, split⟩
        · cases taken
          exact .inr ⟨_, one, within, split⟩
      · cases taken
  · cases taken

theorem wholeFrames_append {frame : List UInt8} (one : IsFrame frame)
    (within : declaredLength frame ≤ max) :
    WholeFrames max (frame ++ rest) ↔ WholeFrames max rest := by
  constructor
  · rintro ⟨frames, same, all⟩
    cases frames with
    | nil =>
      obtain ⟨rfl, _⟩ := List.append_eq_nil_iff.mp same
      exact absurd one.length_pos (Nat.lt_irrefl 0)
    | cons first later =>
      rw [List.forall_mem_cons] at all
      obtain ⟨_, tails⟩ := one.unique all.1.1 same
      exact ⟨later, tails, all.2⟩
  · rintro ⟨frames, rfl, all⟩
    exact ⟨frame :: frames, rfl, List.forall_mem_cons.mpr ⟨⟨one, within⟩, all⟩⟩

theorem wholeFrames_nil : WholeFrames max [] := ⟨[], rfl, nofun⟩

theorem not_wholeFrames_of_large (header : buf ≠ []) (large : max < declaredLength buf) :
    ¬ WholeFrames max buf := by
  rintro ⟨frames, rfl, all⟩
  cases frames with
  | nil => exact header rfl
  | cons first later =>
    rw [List.forall_mem_cons] at all
    have declared := all.1.1.length_eq later.flatten
    have own := all.1.1.length_eq []
    rw [List.append_nil] at own
    rw [List.flatten_cons] at large
    have within := all.1.2
    omega

/-- What is left behind a frame is whole if what was there was. -/
theorem wholeFrames_taken (more : List UInt8)
    (taken : takeFrame codec wording encoding max buf = some (item, rest)) :
    WholeFrames max (buf ++ more) ↔ WholeFrames max (rest ++ more) := by
  rcases takeFrame_cases taken with ⟨_, rfl⟩ | ⟨frame, one, within, rfl⟩
  · exact Iff.rfl
  · rw [List.append_assoc, wholeFrames_append one within]

theorem shorter_of_whole (more : List UInt8) (whole : WholeFrames max (buf ++ more))
    (taken : takeFrame codec wording encoding max buf = some (item, rest)) :
    rest.length < buf.length := by
  have filled : buf ≠ [] := by
    rintro rfl
    cases taken
  have stable := (deframing codec wording encoding max).stable taken more
  rcases takeFrame_cases stable with ⟨large, _⟩ | ⟨frame, one, _, split⟩
  · exact absurd whole (not_wholeFrames_of_large (by simp [filled]) large)
  · have length := congrArg List.length split
    have positive := one.length_pos
    simp only [List.length_append] at length
    omega

theorem nil_of_whole (whole : WholeFrames max buf)
    (taken : takeFrame codec wording encoding max buf = none) : buf = [] := by
  obtain ⟨frames, rfl, all⟩ := whole
  cases frames with
  | nil => rfl
  | cons frame later =>
    rw [List.forall_mem_cons] at all
    have declared := all.1.1.length_eq later.flatten
    have own := all.1.1.length_eq []
    have within := all.1.2
    have length : (frame ++ later.flatten).length = frame.length + later.flatten.length :=
      List.length_append
    rw [List.append_nil] at own
    rw [List.flatten_cons] at taken
    unfold takeFrame at taken
    rw [if_pos (by omega)] at taken
    simp only at taken
    rw [if_neg (by omega), if_pos (by omega)] at taken
    split at taken
    · cases taken
    · cases taken

end Whole

section Schedules

variable (codec : GzipCodec) (base64 : Base64) (encoding : Compression) (max : Nat)

open GrpcResponseBody

/-- The same body, never pending. -/
def withoutPending (body : List DataAnswer) : List DataAnswer := body.filter (· ≠ .pending)

/-- The bytes of the chunks. -/
def dataBytes (body : List DataAnswer) : List UInt8 :=
  body.flatMap fun
    | .chunk bytes => bytes
    | .failed _ | .pending => []

/-- What the trailers still have to say. -/
def GrpcResponseBody.Trailing.left (r : Trailing) : Option Status :=
  if r.trailersChecked then none else GrpcResponseBody.terminalStatus base64 r.trailers

/-- Trailers with the same to say, the second at once. -/
structure Alike (bytes : List UInt8) (r r' : Trailing) : Prop where
  left : r.left base64 = r'.left base64
  prompt : r'.trailersChecked = true ∨ r'.pendings = 0
  late : r.trailersChecked = true ∨ r.pendings = 0 ∨ r.left base64 = none ∨
    ¬ WholeFrames max bytes

variable {codec base64 encoding max} {r r' : Trailing} {buf bytes : List UInt8}
variable {body : List DataAnswer}

private theorem close_checked (checked : r.trailersChecked = true) :
    close base64 r [] = (.ready none, r) := by
  simp only [close, partialFrame_nil, checked, if_true]

private theorem close_prompt (prompt : r.trailersChecked = true ∨ r.pendings = 0) :
    ∃ next, close base64 r [] = (.ready ((r.left base64).map .error), next) ∧
      next.trailersChecked = true := by
  cases checked : r.trailersChecked with
  | true => exact ⟨r, by rw [close_checked checked, Trailing.left, checked]; rfl, checked⟩
  | false =>
    have none : r.pendings = 0 := by simpa [checked] using prompt
    simp only [close, partialFrame_nil, checked, none, Bool.false_eq_true, if_false, Trailing.left]
    cases terminalStatus base64 r.trailers with
    | none => exact ⟨_, rfl, rfl⟩
    | some status => exact ⟨_, rfl, rfl⟩

private theorem close_late (checked : r.trailersChecked = false) {n : Nat} (late : r.pendings = n + 1) :
    ∃ next, close base64 r [] = (.pending, next) ∧ next.trailersChecked = true := by
  simp only [close, partialFrame_nil, checked, late, Bool.false_eq_true, if_false]
  exact ⟨_, rfl, rfl⟩

private theorem left_checked (checked : r.trailersChecked = true) : r.left base64 = none := by
  rw [Trailing.left, checked]
  rfl

private theorem Alike.checked (first : r.trailersChecked = true)
    (second : r'.trailersChecked = true) : Alike base64 max bytes r r' :=
  ⟨by rw [left_checked first, left_checked second], .inl second, .inl first⟩

private theorem Alike.taken {rest more : List UInt8} {item : Except Status (List UInt8)}
    (alike : Alike base64 max (buf ++ more) r r')
    (taken : takeFrame codec wording encoding max buf = some (item, rest)) :
    Alike base64 max (rest ++ more) r r' :=
  ⟨alike.left, alike.prompt, by rw [← wholeFrames_taken more taken]; exact alike.late⟩

private theorem close_leftover (filled : buf ≠ []) :
    ∃ status, ∀ r : Trailing, close base64 r buf = (.ready (some (.error status)), r) := by
  obtain ⟨status, found⟩ := partialFrame_filled filled
  exact ⟨status, fun r => by rw [close, found]⟩

private theorem sameItems_of_alike {eof : Bool}
    (alike : Alike base64 max (buf ++ dataBytes body) r r') (open' : eof = true → body = []) :
    SameItems (GrpcResponseBody.poll codec base64 encoding max) ⟨⟨buf, eof, body⟩, r⟩
      ⟨⟨buf, eof, withoutPending body⟩, r'⟩ := by
  intro items
  unfold GrpcResponseBody.poll
  induction items generalizing buf eof body r r' with
  | nil => exact ⟨fun _ => .start, fun _ => .start⟩
  | cons item items later =>
    induction body generalizing buf eof with
    | nil =>
      rw [show withoutPending [] = [] from rfl]
      cases taken : takeFrame codec wording encoding max buf with
      | some found =>
        obtain ⟨first, rest⟩ := found
        rw [yields_item (poll_frame codec taken), yields_item (poll_frame codec taken)]
        exact and_congr_right fun _ => later (alike.taken taken) open'
      | none =>
        have ends := @poll_end codec _ (close base64) wording encoding max r buf eof taken
        have ends' := @poll_end codec _ (close base64) wording encoding max r' buf eof taken
        by_cases empty : buf = []
        · subst empty
          obtain ⟨next', closed', checked'⟩ := @close_prompt base64 r' alike.prompt
          rw [closed'] at ends'
          rw [yields_item ends']
          cases checked : decide (r.trailersChecked = true ∨ r.pendings = 0) with
          | true =>
            obtain ⟨next, closed, checked⟩ := @close_prompt base64 r (of_decide_eq_true checked)
            rw [closed] at ends
            rw [yields_item ends, alike.left]
            exact and_congr_right fun _ => later (.checked checked checked') fun _ => rfl
          | false =>
            have late := of_decide_eq_false checked
            rw [not_or, Bool.not_eq_true] at late
            obtain ⟨n, waiting⟩ := Nat.exists_eq_succ_of_ne_zero late.2
            obtain ⟨next, closed, checked⟩ := @close_late base64 r late.1 n waiting
            have settled := @poll_end codec _ (close base64) wording encoding max next [] true taken
            have silent : r.left base64 = none := by
              rcases alike.late with checked | none | silent | part
              · rw [late.1] at checked
                cases checked
              · exact absurd none late.2
              · exact silent
              · exact absurd wholeFrames_nil part
            rw [closed] at ends
            rw [close_checked checked] at settled
            rw [yields_pending ends, yields_item settled, ← alike.left, silent]
            exact and_congr_right fun _ => later (.checked checked checked') fun _ => rfl
        · obtain ⟨status, failed⟩ := @close_leftover base64 buf empty
          rw [failed] at ends ends'
          rw [yields_item ends, yields_item ends']
          exact and_congr_right fun _ => later alike fun _ => rfl
    | cons answer body further =>
      obtain rfl : eof = false := by
        cases eof with
        | false => rfl
        | true => cases open' rfl
      cases taken : takeFrame codec wording encoding max buf with
      | some found =>
        obtain ⟨first, rest⟩ := found
        rw [yields_item (poll_frame codec taken), yields_item (poll_frame codec taken)]
        exact and_congr_right fun _ => later (alike.taken taken) nofun
      | none =>
        cases answer with
        | chunk bytes =>
          rw [show withoutPending (.chunk bytes :: body) = .chunk bytes :: withoutPending body by
            simp [withoutPending], yields_congr (poll_chunk codec taken),
            yields_congr (poll_chunk codec taken)]
          refine further ?_ nofun
          rw [List.append_assoc]
          exact alike
        | failed error =>
          rw [show withoutPending (.failed error :: body) = .failed error :: withoutPending body by
            simp [withoutPending], yields_item (poll_failed codec taken),
            yields_item (poll_failed codec taken)]
          exact and_congr_right fun _ => later alike nofun
        | pending =>
          rw [show withoutPending (.pending :: body) = withoutPending body by simp [withoutPending],
            yields_pending (poll_pending codec taken)]
          exact further alike nofun

/-- The end comes from one reader where the other has an error first. -/
def Differs (codec : GzipCodec) (base64 : Base64) (encoding : Compression) (max : Nat)
    (s t : BodyReader Trailing) : Prop :=
  ∃ items status, Yields (GrpcResponseBody.poll codec base64 encoding max) s (items ++ [none]) ∧
    Yields (GrpcResponseBody.poll codec base64 encoding max) t (items ++ [some (.error status)])

private theorem Differs.not_same {s t : BodyReader Trailing}
    (differs : Differs codec base64 encoding max s t) :
    ¬ SameItems (GrpcResponseBody.poll codec base64 encoding max) s t := by
  intro same
  obtain ⟨items, status, first, second⟩ := differs
  have equal := ((same _).mp first).unique second (by simp)
  simp at equal

private theorem Differs.item {s t next next' : BodyReader Trailing}
    {item : Option (Except Status (List UInt8))}
    (first : GrpcResponseBody.poll codec base64 encoding max s = (.ready item, next))
    (second : GrpcResponseBody.poll codec base64 encoding max t = (.ready item, next'))
    (later : Differs codec base64 encoding max next next') :
    Differs codec base64 encoding max s t := by
  obtain ⟨items, status, yields, yields'⟩ := later
  exact ⟨item :: items, status, .item first yields, .item second yields'⟩

private theorem differs_of_blocked
    (blocked : ∀ buf, takeFrame codec GrpcResponseBody.wording encoding max buf = none →
      WholeFrames max (buf ++ dataBytes body) → Differs codec base64 encoding max
        ⟨⟨buf, false, body⟩, r⟩ ⟨⟨buf, false, withoutPending body⟩, r'⟩)
    (whole : WholeFrames max (buf ++ dataBytes body)) :
    Differs codec base64 encoding max ⟨⟨buf, false, body⟩, r⟩
      ⟨⟨buf, false, withoutPending body⟩, r'⟩ := by
  induction length : buf.length using Nat.strongRecOn generalizing buf with
  | ind size inductionHypothesis =>
    cases taken : takeFrame codec GrpcResponseBody.wording encoding max buf with
    | none => exact blocked buf taken whole
    | some found =>
      obtain ⟨item, rest⟩ := found
      have shorter : rest.length < size := by
        rw [← length]
        exact shorter_of_whole _ whole taken
      refine .item (poll_frame codec taken) (poll_frame codec taken) ?_
      exact inductionHypothesis rest.length shorter ((wholeFrames_taken _ taken).mp whole) rfl

private theorem differs_of_late {n : Nat} {status : Status} (unread : r.trailersChecked = false)
    (late : r.pendings = n + 1) (prompt : r'.trailersChecked = true ∨ r'.pendings = 0)
    (fails : r'.left base64 = some status) (whole : WholeFrames max (buf ++ dataBytes body)) :
    Differs codec base64 encoding max ⟨⟨buf, false, body⟩, r⟩
      ⟨⟨buf, false, withoutPending body⟩, r'⟩ := by
  induction body generalizing buf with
  | nil =>
    refine differs_of_blocked (fun buf taken whole => ?_) whole
    rw [show dataBytes [] = [] from rfl, List.append_nil] at whole
    obtain rfl := nil_of_whole whole taken
    rw [show withoutPending [] = [] from rfl]
    obtain ⟨next, closed, checked⟩ := @close_late base64 r unread n late
    obtain ⟨next', closed', _⟩ := @close_prompt base64 r' prompt
    have waits := @poll_end codec _ (close base64) GrpcResponseBody.wording encoding max r [] false taken
    have settled := @poll_end codec _ (close base64) GrpcResponseBody.wording encoding max next [] true
      taken
    have fails' := @poll_end codec _ (close base64) GrpcResponseBody.wording encoding max r' [] false
      taken
    rw [closed] at waits
    rw [close_checked checked] at settled
    rw [closed', fails] at fails'
    exact ⟨[], status, .pending waits (.item settled .start), .item fails' .start⟩
  | cons answer body inductionHypothesis =>
    refine differs_of_blocked (fun buf taken whole => ?_) whole
    cases answer with
    | chunk bytes =>
      rw [show withoutPending (.chunk bytes :: body) = .chunk bytes :: withoutPending body by
        simp [withoutPending]]
      have whole' : WholeFrames max (buf ++ bytes ++ dataBytes body) := by
        rw [List.append_assoc]
        exact whole
      obtain ⟨items, status, first, second⟩ := inductionHypothesis whole'
      exact ⟨items, status, (yields_congr (poll_chunk codec taken)).mpr first,
        (yields_congr (poll_chunk codec taken)).mpr second⟩
    | failed error =>
      rw [show withoutPending (.failed error :: body) = .failed error :: withoutPending body by
        simp [withoutPending]]
      exact .item (poll_failed codec taken) (poll_failed codec taken) (inductionHypothesis whole)
    | pending =>
      rw [show withoutPending (.pending :: body) = withoutPending body by simp [withoutPending]]
      obtain ⟨items, status, first, second⟩ := inductionHypothesis whole
      exact ⟨items, status, .pending (poll_pending codec taken) first, second⟩

/-- The items of a response do not depend on how often the data or the trailers are pending. -/
def ScheduleFree (codec : GzipCodec) (base64 : Base64) (encoding : Compression) (max : Nat)
    (pendings : Nat) (trailers : Option HeaderMap) (body : List DataAnswer) : Prop :=
  SameItems (GrpcResponseBody.poll codec base64 encoding max) (.new body { pendings, trailers })
    (.new (withoutPending body) { trailers })

/-- The items of a response depend on the schedule only where the trailers come late, tell a
failure, and are come to at all. -/
theorem scheduleFree_iff (pendings : Nat) (trailers : Option HeaderMap) (body : List DataAnswer) :
    ScheduleFree codec base64 encoding max pendings trailers body ↔
      pendings = 0 ∨ GrpcResponseBody.terminalStatus base64 trailers = none ∨
        ¬ WholeFrames max (dataBytes body) := by
  constructor
  · intro same
    apply Classical.byContradiction
    intro dependent
    rw [not_or, not_or, Classical.not_not] at dependent
    obtain ⟨late, fails, whole⟩ := dependent
    obtain ⟨n, waiting⟩ := Nat.exists_eq_succ_of_ne_zero late
    obtain ⟨status, fails⟩ := Option.ne_none_iff_exists'.mp fails
    exact (@differs_of_late codec base64 encoding max { pendings, trailers } { trailers } [] body n
      status rfl waiting (.inr rfl) fails whole).not_same same
  · intro independent
    exact sameItems_of_alike ⟨rfl, .inr rfl, .inr independent⟩ nofun

/-- Trailers that tell a failure, and are pending once, are never reported. -/
theorem not_scheduleFree : ¬ ScheduleFree sampleGzip (fun _ => .ok []) .identity 1 1
    (some [("grpc-status", asBytes "5")]) [] := by
  intro same
  have waited : Yields (GrpcResponseBody.poll sampleGzip (fun _ => .ok []) .identity 1)
      (.new [] { pendings := 1, trailers := some [("grpc-status", asBytes "5")] }) [none] :=
    .pending rfl (.item rfl .start)
  obtain ⟨status, next, prompt⟩ : ∃ status next,
      GrpcResponseBody.poll sampleGzip (fun _ => .ok []) .identity 1
        (.new [] { trailers := some [("grpc-status", asBytes "5")] }) =
        (.ready (some (.error status)), next) := ⟨_, _, rfl⟩
  cases ((yields_item prompt).mp ((same _).mp waited)).1

end Schedules

end TptProto.Grpc
