import TptProto.Grpc.Deframe
import TptProto.Grpc.Client

/-! Splitting a collected response into its frames. The loop takes the length of a frame for
the offset of its end, so it is right about responses of at most one frame. -/

namespace TptProto.Grpc

open TptProto.Core TptProto.Foundation

/-- Bytes that are one frame. -/
def IsFrame (frame : List UInt8) : Prop :=
  ∃ flag payload, payload.length < 2 ^ 32 ∧ frame = framed flag payload

/-- Bytes that begin a frame and end before it does. -/
def CutFrame (bytes : List UInt8) : Prop :=
  bytes ≠ [] ∧ (bytes.length < 5 ∨ bytes.length < 5 + declaredLength bytes)

/-- Whole frames and then the beginning of another. -/
def Truncated (bytes : List UInt8) : Prop :=
  ∃ (frames : List (List UInt8)) (rest : List UInt8),
    (∀ frame ∈ frames, IsFrame frame) ∧ CutFrame rest ∧ bytes = frames.flatten ++ rest

/-- What a response should be split into: its frames, and an error if the last is cut short. -/
structure SplitsRight (bytes : List UInt8) (split : Outcome Status (List (List UInt8))) : Prop where
  whole : ∀ frames : List (List UInt8), (∀ frame ∈ frames, IsFrame frame) →
    bytes = frames.flatten → split = .ok frames
  returns : split.Returns
  truncated : Truncated bytes → ∃ status, split = .err status

section Frames

theorem IsFrame.length_pos {frame : List UInt8} (one : IsFrame frame) : 0 < frame.length := by
  obtain ⟨flag, payload, _, rfl⟩ := one
  rw [framed_length]
  omega

/-- A frame says in its header how long it is. -/
theorem IsFrame.length_eq {frame : List UInt8} (one : IsFrame frame) (rest : List UInt8) :
    frame.length = 5 + declaredLength (frame ++ rest) := by
  obtain ⟨flag, payload, counted, rfl⟩ := one
  rw [framed_length, declaredLength_framed, Nat.mod_eq_of_lt counted]

/-- Bytes with a header and what it declares begin with a frame. -/
theorem isFrame_take {bytes : List UInt8} (long : 5 + declaredLength bytes ≤ bytes.length) :
    IsFrame (bytes.take (5 + declaredLength bytes)) := by
  match bytes, long with
  | flag :: tail, long =>
    have width : (tail.take 4).length = 4 := by
      rw [List.length_take]
      simp only [List.length_cons] at long
      omega
    have declared : declaredLength (flag :: tail) = (fromBeBytes (tail.take 4)).toNat := rfl
    have payload : ((tail.drop 4).take (declaredLength (flag :: tail))).length =
        declaredLength (flag :: tail) := by
      rw [List.length_take, List.length_drop]
      simp only [List.length_cons] at long
      omega
    refine ⟨flag, (tail.drop 4).take (declaredLength (flag :: tail)), ?_, ?_⟩
    · rw [payload, declared]
      exact UInt32.toNat_lt _
    · rw [framed, payload, declared, UInt32.ofNat_toNat, toBeBytes_fromBeBytes width, ← declared,
        show 5 + declaredLength (flag :: tail) = (4 + declaredLength (flag :: tail)) + 1 by omega,
        List.take_succ_cons, List.take_add]

/-- A frame does not begin before another ends. -/
theorem IsFrame.not_cut {frame rest : List UInt8} (one : IsFrame frame) :
    ¬ CutFrame (frame ++ rest) := by
  have length := one.length_eq rest
  rintro ⟨_, short | short⟩
  · rw [List.length_append] at short
    omega
  · rw [List.length_append] at short
    omega

/-- Two readings of the same bytes agree on the first frame. -/
theorem IsFrame.unique {frame frame' rest rest' : List UInt8} (one : IsFrame frame)
    (other : IsFrame frame') (same : frame ++ rest = frame' ++ rest') :
    frame = frame' ∧ rest = rest' := by
  have length := one.length_eq rest
  rw [same, ← other.length_eq rest'] at length
  exact List.append_inj same length

/-- Bytes are split into frames in one way, and not both into frames and into less. -/
theorem frames_unique {frames frames' : List (List UInt8)} {rest : List UInt8}
    (first : ∀ frame ∈ frames, IsFrame frame) (second : ∀ frame ∈ frames', IsFrame frame)
    (cut : rest = [] ∨ CutFrame rest) (same : frames.flatten = frames'.flatten ++ rest) :
    frames = frames' ∧ rest = [] := by
  induction frames generalizing frames' with
  | nil =>
    obtain ⟨none, rfl⟩ := List.append_eq_nil_iff.mp same.symm
    cases frames' with
    | nil => exact ⟨rfl, rfl⟩
    | cons frame' rest' =>
      have pos := (second frame' (by simp)).length_pos
      simp_all
  | cons frame later inductionHypothesis =>
    have one := first frame (by simp)
    cases frames' with
    | nil =>
      rw [List.flatten_nil, List.nil_append, List.flatten_cons] at same
      have pos := one.length_pos
      rcases cut with rfl | cut
      · simp_all
      · exact absurd (same ▸ cut) one.not_cut
    | cons frame' later' =>
      rw [List.flatten_cons, List.flatten_cons, List.append_assoc] at same
      obtain ⟨rfl, tails⟩ := one.unique (second frame' (by simp)) same
      obtain ⟨rfl, ended⟩ := inductionHypothesis (fun f member => first f (by simp [member]))
        (fun f member => second f (by simp [member])) tails
      exact ⟨rfl, ended⟩

/-- All bytes are whole frames, or whole frames and the beginning of another. -/
theorem frames_or_truncated (bytes : List UInt8) :
    (∃ frames : List (List UInt8), (∀ frame ∈ frames, IsFrame frame) ∧ bytes = frames.flatten) ∨
      Truncated bytes := by
  induction size : bytes.length using Nat.strongRecOn generalizing bytes with
  | ind n inductionHypothesis =>
    by_cases none : bytes = []
    · exact .inl ⟨[], by simp, by rw [none]; rfl⟩
    by_cases cut : bytes.length < 5 + declaredLength bytes
    · exact .inr ⟨[], bytes, by simp, ⟨none, .inr cut⟩, rfl⟩
    have one := isFrame_take (Nat.le_of_not_lt cut)
    have split := List.take_append_drop (5 + declaredLength bytes) bytes
    rcases inductionHypothesis _ (by rw [List.length_drop]; omega)
      (bytes.drop (5 + declaredLength bytes)) rfl with ⟨frames, all, rest⟩ | ⟨frames, rest, all, cut, rest'⟩
    · refine .inl ⟨_ :: frames, List.forall_mem_cons.mpr ⟨one, all⟩, ?_⟩
      rw [List.flatten_cons, ← rest, split]
    · refine .inr ⟨_ :: frames, rest, List.forall_mem_cons.mpr ⟨one, all⟩, cut, ?_⟩
      rw [List.flatten_cons, List.append_assoc, ← rest', split]

end Frames

section Passes

variable {buf : List UInt8}

/-- Following the declared lengths as if they were offsets, each beyond the one before, leads
to an offset where the bytes run out. -/
inductive LeadsToEnd (bytes : List UInt8) : Nat → Prop where
  | ends {i : Nat} (inside : i < bytes.length)
      (short : bytes.length < i + 5 ∨ bytes.length < 5 + declaredLength (bytes.drop i)) :
      LeadsToEnd bytes i
  | further {i : Nat} (beyond : i < 5 + declaredLength (bytes.drop i))
      (rest : LeadsToEnd bytes (5 + declaredLength (bytes.drop i))) : LeadsToEnd bytes i

theorem LeadsToEnd.inside {i : Nat} (leads : LeadsToEnd buf i) : i < buf.length := by
  induction leads with
  | ends inside _ => exact inside
  | further beyond _ inductionHypothesis => omega

/-- A pass at the start of a frame whose payload is as long as declared. -/
private theorem splitStep_first (flag : UInt8) {payload : List UInt8} (rest : List UInt8)
    (counted : payload.length < 2 ^ 32) :
    splitStep (framed flag payload ++ rest) ([], 0) =
      .ok ([framed flag payload], (framed flag payload).length) := by
  have length := framed_length flag payload
  have declared := declaredLength_framed flag payload rest
  rw [Nat.mod_eq_of_lt counted] at declared
  unfold splitStep
  simp only [List.drop_zero, declared]
  rw [if_neg (by rw [List.length_append, length]; omega),
    if_neg (by rw [List.length_append, length]; omega), if_neg (by omega), ← length,
    Nat.sub_zero, List.take_left]
  rfl

theorem split_single (flag : UInt8) {payload : List UInt8} (counted : payload.length < 2 ^ 32) :
    splitGrpcFrames (framed flag payload) = .ok [framed flag payload] := by
  have first := splitStep_first flag [] counted
  rw [List.append_nil] at first
  have started : splitMore (framed flag payload) ([], 0) = true := by
    simp [splitMore, framed]
  have finished : splitMore (framed flag payload)
      ([framed flag payload], (framed flag payload).length) = false := by simp [splitMore]
  unfold splitGrpcFrames
  rw [loop_step started, first, Outcome.ok_bind, loop_done finished]
  rfl

/-- Passes only append frames. -/
private theorem split_keeps {state final : List (List UInt8) × Nat} {fuel : Nat}
    (split : loop (splitMore buf) (splitStep buf) fuel state = .ok final) :
    ∃ later, final.1 = state.1 ++ later := by
  refine (loop_invariant split (fun s => ∃ later, s.1 = state.1 ++ later) ?_ ?_).1
  · exact ⟨[], (List.append_nil _).symm⟩
  · rintro s s' ⟨later, same⟩ _ moved
    simp only [splitStep] at moved
    split at moved
    · cases moved
    · split at moved
      · cases moved
      · split at moved
        · cases moved
        · cases moved
          exact ⟨_, by rw [same, List.append_assoc]⟩

/-- The second frame is cut at an offset that ignores the first. -/
theorem split_second {flag flag' : UInt8} {payload payload' rest : List UInt8}
    {frames : List (List UInt8)} (counted : payload.length < 2 ^ 32)
    (counted' : payload'.length < 2 ^ 32)
    (split : splitGrpcFrames (framed flag payload ++ (framed flag' payload' ++ rest)) = .ok frames) :
    ∃ n, n < 5 + payload'.length ∧ (framed flag' payload').take n ∈ frames := by
  have length := framed_length flag payload
  have length' := framed_length flag' payload'
  have declared := declaredLength_framed flag' payload' rest
  rw [Nat.mod_eq_of_lt counted'] at declared
  have total : (framed flag payload ++ (framed flag' payload' ++ rest)).length =
      5 + payload.length + (5 + payload'.length + rest.length) := by
    rw [List.length_append, List.length_append, length, length']
  obtain ⟨⟨out, i⟩, looped, same⟩ := Outcome.bind_eq_ok.mp split
  cases same
  rw [loop_step (by simp only [splitMore, decide_eq_true_eq]; omega),
    splitStep_first flag _ counted, Outcome.ok_bind, total,
    show 5 + payload.length + (5 + payload'.length + rest.length) =
      4 + payload.length + (5 + payload'.length + rest.length) + 1 by omega,
    loop_step (by simp only [splitMore, decide_eq_true_eq]; omega)] at looped
  obtain ⟨next, moved, later⟩ := Outcome.bind_eq_ok.mp looped
  simp only [splitStep, List.drop_left, declared] at moved
  split at moved
  · cases moved
  · split at moved
    · cases moved
    · split at moved
      · cases moved
      · cases moved
        obtain ⟨more, kept⟩ := split_keeps later
        simp only at kept
        refine ⟨5 + payload'.length - (framed flag payload).length, by omega, ?_⟩
        rw [kept, List.take_append_of_le_length (by omega)]
        simp

/-- A pass over a header and a declared length that the buffer has room for. -/
private theorem splitStep_eq {out : List (List UInt8)} {i : Nat} (header : i + 5 ≤ buf.length)
    (body : 5 + declaredLength (buf.drop i) ≤ buf.length) :
    splitStep buf (out, i) = if 5 + declaredLength (buf.drop i) < i then .panic
      else .ok (out ++ [(buf.drop i).take (5 + declaredLength (buf.drop i) - i)],
        5 + declaredLength (buf.drop i)) := by
  simp only [splitStep]
  rw [if_neg (by omega), if_neg (by omega)]

private theorem splitStep_fails {out : List (List UInt8)} {i : Nat}
    (short : buf.length < i + 5 ∨ buf.length < 5 + declaredLength (buf.drop i)) :
    ∃ status, splitStep buf (out, i) = .err status := by
  simp only [splitStep]
  by_cases header : i + 5 > buf.length
  · rw [if_pos header]
    exact ⟨_, rfl⟩
  · rw [if_neg header, if_pos (by omega)]
    exact ⟨_, rfl⟩

/-- An offset that its own header names is never left. -/
private theorem split_stuck {out : List (List UInt8)} {i : Nat} (inside : i < buf.length)
    (header : i + 5 ≤ buf.length) (stays : 5 + declaredLength (buf.drop i) = i) (fuel : Nat) :
    loop (splitMore buf) (splitStep buf) fuel (out, i) = .outOfFuel := by
  refine loop_diverges (fun state => state.2 = i) rfl (fun state here => ?_) fuel
  obtain ⟨before, j⟩ := state
  obtain rfl : j = i := here
  have step := @splitStep_eq buf before j header (by omega)
  rw [if_neg (by omega)] at step
  exact ⟨by simpa [splitMore] using inside, _, step, stays⟩

/-- The loop fails from just the offsets that lead upwards to where the bytes run out. -/
private theorem split_fails_iff {out : List (List UInt8)} {i fuel : Nat} (enough : buf.length < i + fuel) :
    (∃ status, loop (splitMore buf) (splitStep buf) fuel (out, i) = .err status) ↔ LeadsToEnd buf i := by
  constructor
  · rintro ⟨status, failed⟩
    clear enough
    induction fuel generalizing out i with
    | zero =>
      unfold loop at failed
      split at failed <;> cases failed
    | succ fuel inductionHypothesis =>
      by_cases inside : i < buf.length
      · by_cases short : buf.length < i + 5 ∨ buf.length < 5 + declaredLength (buf.drop i)
        · exact .ends inside short
        have step := @splitStep_eq buf out i (by omega) (by omega)
        by_cases stays : 5 + declaredLength (buf.drop i) = i
        · rw [split_stuck inside (by omega) stays] at failed
          cases failed
        rw [loop_step (by simpa [splitMore] using inside), step] at failed
        by_cases back : 5 + declaredLength (buf.drop i) < i
        · rw [if_pos back] at failed
          cases failed
        · rw [if_neg back] at failed
          exact .further (by omega) (inductionHypothesis failed)
      · rw [loop_done (by simpa [splitMore] using inside)] at failed
        cases failed
  · intro leads
    induction leads generalizing out fuel with
    | @ends i inside short =>
      obtain ⟨status, failed⟩ := @splitStep_fails buf out i short
      cases fuel with
      | zero => omega
      | succ fuel =>
        rw [loop_step (by simpa [splitMore] using inside), failed]
        exact ⟨status, rfl⟩
    | @further i beyond rest inductionHypothesis =>
      have inside := rest.inside
      cases fuel with
      | zero => omega
      | succ fuel =>
        rw [loop_step (by simp only [splitMore, decide_eq_true_eq]; omega)]
        by_cases short : buf.length < i + 5
        · obtain ⟨status, failed⟩ := @splitStep_fails buf out i (.inl short)
          rw [failed]
          exact ⟨status, rfl⟩
        · rw [splitStep_eq (by omega) (by omega), if_neg (by omega), Outcome.ok_bind]
          exact inductionHypothesis (by omega)

end Passes

/-- No list with a second frame is ever returned. -/
private theorem split_many {first second : List UInt8} {rest : List (List UInt8)}
    (all : ∀ frame ∈ first :: second :: rest, IsFrame frame) :
    splitGrpcFrames (first :: second :: rest).flatten ≠ .ok (first :: second :: rest) := by
  intro split
  obtain ⟨flag, payload, counted, rfl⟩ := all first (by simp)
  obtain ⟨flag', payload', counted', rfl⟩ := all second (by simp)
  rw [List.flatten_cons, List.flatten_cons] at split
  obtain ⟨n, short, member⟩ := split_second counted counted' split
  have length := framed_length flag' payload'
  have whole := (all _ (List.mem_cons_of_mem _ (List.mem_cons_self (a := framed flag' payload')))).length_eq []
  have cut := all _ member
  have declared := cut.length_eq ((framed flag' payload').drop n)
  rw [List.take_append_drop, List.length_take] at declared
  rw [List.append_nil] at whole
  omega

/-- A response is split right just if it has at most one frame, or if it is cut short and the
declared lengths, followed as offsets, lead upwards to where it ends. -/
theorem splitGrpcFrames_right_iff (bytes : List UInt8) :
    SplitsRight bytes (splitGrpcFrames bytes) ↔
      bytes = [] ∨ IsFrame bytes ∨ Truncated bytes ∧ LeadsToEnd bytes 0 := by
  have failing : (∃ status, splitGrpcFrames bytes = .err status) ↔ LeadsToEnd bytes 0 := by
    rw [← @split_fails_iff bytes [] 0 (bytes.length + 1) (by omega)]
    unfold splitGrpcFrames
    cases loop (splitMore bytes) (splitStep bytes) (bytes.length + 1) ([], 0) <;> simp
  constructor
  · intro right
    rcases frames_or_truncated bytes with ⟨frames, all, rfl⟩ | truncated
    · match frames with
      | [] => exact .inl rfl
      | [one] => exact .inr (.inl (by simpa using all one (by simp)))
      | first :: second :: rest => exact absurd (right.whole _ all rfl) (split_many all)
    · exact .inr (.inr ⟨truncated, failing.mp (right.truncated truncated)⟩)
  · have exclusive : ∀ frames : List (List UInt8), (∀ frame ∈ frames, IsFrame frame) →
        bytes = frames.flatten → ¬ Truncated bytes := by
      rintro frames all rfl ⟨frames', rest, all', cut, same⟩
      exact cut.1 (frames_unique all all' (.inr cut) same).2
    have known : ∀ frames : List (List UInt8), (∀ frame ∈ frames, IsFrame frame) →
        bytes = frames.flatten → splitGrpcFrames bytes = .ok frames →
        SplitsRight bytes (splitGrpcFrames bytes) := by
      intro frames all same split
      refine ⟨fun frames' all' same' => ?_, by rw [split]; trivial,
        fun truncated => absurd truncated (exclusive frames all same)⟩
      rw [split, (@frames_unique frames frames' [] all all' (.inl rfl)
        (by rw [List.append_nil, ← same, same'])).1]
    rintro (rfl | one | ⟨truncated, leads⟩)
    · exact known [] (by simp) rfl rfl
    · refine known [bytes] (by simpa using one) (by simp) ?_
      obtain ⟨flag, payload, counted, rfl⟩ := one
      exact split_single flag counted
    · obtain ⟨status, failed⟩ := failing.mpr leads
      refine ⟨fun frames all same => absurd truncated (exclusive frames all same),
        by rw [failed]; trivial, fun _ => ⟨status, failed⟩⟩

/-- Two empty messages: the second pass takes the offset of the second frame for its own end. -/
theorem not_splitGrpcFrames_right :
    ¬ SplitsRight [0, 0, 0, 0, 0, 0, 0, 0, 0, 0] (splitGrpcFrames [0, 0, 0, 0, 0, 0, 0, 0, 0, 0]) :=
  fun right => right.returns

end TptProto.Grpc
