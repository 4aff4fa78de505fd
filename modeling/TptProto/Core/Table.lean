import TptProto.Core.Nesting
import TptProto.Core.Twin

/-! Hand-written decoders: a loop that matches on the field number and wire type of each
tag and skips what no arm takes. A family of such decoders calls itself on nested bodies. -/

namespace TptProto.Core

open TptProto.Foundation

/-- What a match arm reads and what it does to the message. -/
inductive Arm {Kind : Type} (Data : Kind → Type) (D : Type) where
  | string (set : String → D → D)
  | bytes (set : List UInt8 → D → D)
  | int32 (set : Int32 → D → D)
  | int64 (set : Int64 → D → D)
  | uint32 (set : UInt32 → D → D)
  | uint64 (set : UInt64 → D → D)
  | bool (set : Bool → D → D)
  | float (set : UInt32 → D → D)
  | double (set : UInt64 → D → D)
  | message (opening : Opening) (kind : Kind) (set : Data kind → D → D)

/-- A family of message types: how each starts, and its arms. -/
structure Table where
  Kind : Type
  Data : Kind → Type
  start : (kind : Kind) → Data kind
  arms : (kind : Kind) → UInt32 → WireType → Option (Arm Data (Data kind))

namespace Table

variable (T : Table)

/-- The decoder that nested bodies are handed to. -/
abbrev Recurse := (kind : T.Kind) → Reader → Result (T.Data kind)

variable {T}

def runArm {D : Type} (recurse : T.Recurse) (arm : Arm T.Data D) (self : D) (r : Reader) :
    Result (D × Reader) :=
  match arm with
  | .string set => r.readStringOwned >>= fun (value, r) => .ok (set value self, r)
  | .bytes set => r.readLengthDelimited >>= fun (body, r) => .ok (set body.bytes self, r)
  | .int32 set => r.readInt32 >>= fun (value, r) => .ok (set value self, r)
  | .int64 set => r.readInt64 >>= fun (value, r) => .ok (set value self, r)
  | .uint32 set => r.readUint32 >>= fun (value, r) => .ok (set value self, r)
  | .uint64 set => r.readUint64 >>= fun (value, r) => .ok (set value self, r)
  | .bool set => r.readBool >>= fun (value, r) => .ok (set value self, r)
  | .float set => r.readFloat >>= fun (value, r) => .ok (set value self, r)
  | .double set => r.readDouble >>= fun (value, r) => .ok (set value self, r)
  | .message opening kind set => do
    let (body, r) ← r.readLengthDelimited
    let sub ← opening.open r body
    let value ← recurse kind sub
    .ok (set value self, r)

/-- One pass of `merge_from`. -/
def mergeStep (recurse : T.Recurse) (kind : T.Kind) (state : T.Data kind × Reader) :
    Result (T.Data kind × Reader) := do
  let (tag, r) ← state.2.readTag
  match T.arms kind tag.fieldNumber tag.wireType with
  | some arm => runArm recurse arm state.1 r
  | none => do
    let r ← r.skip tag.wireType
    .ok (state.1, r)

def mergeWith (recurse : T.Recurse) : T.Recurse := fun kind r => do
  let (self, _) ← r.drain (mergeStep recurse kind) (T.start kind)
  .ok self

def decodeNested : Nat → T.Recurse
  | 0 => fun _ _ => .outOfFuel
  | fuel + 1 => mergeWith (decodeNested fuel)

/-- Decode a message of a kind. A nested body is shorter than the buffer it lies in. -/
def decode : T.Recurse := fun kind r => decodeNested (r.buf.length + 1) kind r

/-- `Message::decode`. -/
def decodeBytes (kind : T.Kind) (bytes : Slice) : Result (T.Data kind) := do
  let (self, r) ← (Reader.new bytes).drain (mergeStep decode kind) (T.start kind)
  if !r.isEmpty then .err (.malformedInput "trailing bytes after message")
  else .ok self

theorem runArm_kept {D : Type} {recurse : T.Recurse} {arm : Arm T.Data D} {self self' : D}
    {r r' : Reader} (run : runArm recurse arm self r = .ok (self', r')) : Reader.Kept r r' := by
  cases arm with
  | string set =>
    simp only [runArm, Outcome.bind_eq_ok, Prod.exists, Outcome.ok.injEq, Prod.mk.injEq] at run
    obtain ⟨_, _, read, _, rfl⟩ := run
    exact Reader.readStringOwned_kept read
  | bytes set =>
    simp only [runArm, Outcome.bind_eq_ok, Prod.exists, Outcome.ok.injEq, Prod.mk.injEq] at run
    obtain ⟨_, _, read, _, rfl⟩ := run
    exact Reader.readLengthDelimited_kept read
  | int32 set | int64 set | uint32 set | bool set =>
    simp only [runArm, Outcome.bind_eq_ok, Prod.exists, Outcome.ok.injEq, Prod.mk.injEq] at run
    obtain ⟨_, _, read, _, rfl⟩ := run
    exact Reader.readAs_kept Reader.readVarint_kept read
  | uint64 set =>
    simp only [runArm, Outcome.bind_eq_ok, Prod.exists, Outcome.ok.injEq, Prod.mk.injEq] at run
    obtain ⟨_, _, read, _, rfl⟩ := run
    exact Reader.readVarint_kept read
  | float set =>
    simp only [runArm, Outcome.bind_eq_ok, Prod.exists, Outcome.ok.injEq, Prod.mk.injEq] at run
    obtain ⟨_, _, read, _, rfl⟩ := run
    exact Reader.readFixed32_kept read
  | double set =>
    simp only [runArm, Outcome.bind_eq_ok, Prod.exists, Outcome.ok.injEq, Prod.mk.injEq] at run
    obtain ⟨_, _, read, _, rfl⟩ := run
    exact Reader.readFixed64_kept read
  | message opening kind set =>
    simp only [runArm, Outcome.bind_eq_ok, Prod.exists, Outcome.ok.injEq, Prod.mk.injEq] at run
    obtain ⟨_, _, read, _, _, _, _, _, rfl⟩ := run
    exact Reader.readLengthDelimited_kept read

theorem mergeStep_kept {recurse : T.Recurse} {kind : T.Kind} {state next : T.Data kind × Reader}
    (moved : mergeStep recurse kind state = .ok next) : Reader.Kept state.2 next.2 := by
  simp only [mergeStep, Outcome.bind_eq_ok, Prod.exists] at moved
  obtain ⟨tag, r, read, moved⟩ := moved
  cases found : T.arms kind tag.fieldNumber tag.wireType with
  | some arm =>
    rw [found] at moved
    exact (Reader.readTag_kept read).trans (runArm_kept moved)
  | none =>
    rw [found] at moved
    simp only [Outcome.bind_eq_ok, Outcome.ok.injEq] at moved
    obtain ⟨last, skipped, rfl⟩ := moved
    exact (Reader.readTag_kept read).trans (Reader.skip_kept skipped)

/-- A pass depends only on how shorter buffers are decoded. -/
theorem mergeStep_congr {recurse recurse' : T.Recurse} {kind : T.Kind}
    {state : T.Data kind × Reader}
    (same : ∀ kind sub, sub.buf.length < state.2.buf.length → recurse kind sub = recurse' kind sub) :
    mergeStep recurse kind state = mergeStep recurse' kind state := by
  simp only [mergeStep]
  refine Outcome.bind_congr fun pair readTag => ?_
  obtain ⟨tag, r⟩ := pair
  simp only
  split
  · rename_i arm _
    cases arm with
    | string | bytes | int32 | int64 | uint32 | uint64 | bool | float | double => rfl
    | message opening child set =>
      simp only [runArm]
      refine Outcome.bind_congr fun pair readBody => ?_
      refine Outcome.bind_congr fun sub opened => ?_
      have shorter := Reader.readLengthDelimited_shorter readBody
      rw [(Reader.readTag_kept readTag).buf] at shorter
      rw [same child sub (by rw [Opening.open_buf opened]; exact shorter)]
  · rfl

theorem mergeWith_congr {recurse recurse' : T.Recurse} {kind : T.Kind} {r : Reader}
    (same : ∀ kind sub, sub.buf.length < r.buf.length → recurse kind sub = recurse' kind sub) :
    mergeWith recurse kind r = mergeWith recurse' kind r := by
  have looped : r.drain (mergeStep recurse kind) (T.start kind) =
      r.drain (mergeStep recurse' kind) (T.start kind) := by
    refine loop_congr (fun state => state.2.buf = r.buf) (fun state held _ => ?_)
      (fun state next held _ moved => ?_) rfl
    · exact mergeStep_congr fun kind sub shorter => same kind sub (by rwa [held] at shorter)
    · exact (mergeStep_kept moved).buf.trans held
  simp only [mergeWith, looped]

/-- Any budget above the buffer's length decodes alike. -/
theorem decodeNested_eq {kind : T.Kind} {r : Reader} {fuel fuel' : Nat}
    (enough : r.buf.length < fuel) (enough' : r.buf.length < fuel') :
    decodeNested fuel kind r = decodeNested fuel' kind r := by
  induction fuel generalizing kind r fuel' with
  | zero => omega
  | succ fuel ih =>
    cases fuel' with
    | zero => omega
    | succ fuel' =>
      exact mergeWith_congr fun kind sub shorter => ih (by omega) (by omega)

/-- The decoder calls itself. -/
theorem decode_eq (kind : T.Kind) (r : Reader) : decode kind r = mergeWith decode kind r :=
  mergeWith_congr fun _ _ shorter => decodeNested_eq shorter (Nat.lt_succ_self _)

/-- The loop leaves nothing behind. -/
theorem decodeBytes_eq (kind : T.Kind) (bytes : Slice) :
    decodeBytes kind bytes = decode kind (.new bytes) := by
  rw [decode_eq, mergeWith, decodeBytes]
  refine Outcome.bind_congr fun state drained => ?_
  obtain ⟨_, run, _⟩ := loop_eq_ok_iff.mp drained
  simp only [run.finished, Bool.false_eq_true, if_false]

end Table

end TptProto.Core

/-! The nesting of a family of hand-written decoders. -/

namespace TptProto.Core.Table

open TptProto.Foundation

variable {T : Table}

theorem runArm_twin {D : Type} {recurse : T.Recurse} {arm : Arm T.Data D} {self self' : D}
    {r s : Reader} (twin : Reader.Twin r s) :
    Outcome.Related (fun a b => Reader.Twin a.2 b.2) (runArm recurse arm self r)
      (runArm recurse arm self' s) := by
  cases arm with
  | string set => exact twin.readStringOwned.bind fun _ _ agreed => .ok agreed.twin
  | bytes set => exact twin.readLengthDelimited.bind fun _ _ agreed => .ok agreed.twin
  | int32 set | int64 set | uint32 set | bool set =>
    exact (Reader.Twin.readAs twin.readVarint).bind fun _ _ agreed => .ok agreed.twin
  | uint64 set => exact twin.readVarint.bind fun _ _ agreed => .ok agreed.twin
  | float set => exact twin.readFixed32.bind fun _ _ agreed => .ok agreed.twin
  | double set => exact twin.readFixed64.bind fun _ _ agreed => .ok agreed.twin
  | message opening kind set =>
    refine twin.readLengthDelimited.bind fun pair pair' agreed => ?_
    intro a b run run'
    simp only [Outcome.bind_eq_ok, Outcome.ok.injEq] at run run'
    obtain ⟨_, _, _, _, rfl⟩ := run
    obtain ⟨_, _, _, _, rfl⟩ := run'
    exact agreed.twin

/-- Where a pass stops depends on where it starts, not on what was counted before. -/
theorem mergeStep_twin {recurse : T.Recurse} {kind : T.Kind} {a b : T.Data kind × Reader}
    (twin : Reader.Twin a.2 b.2) :
    Outcome.Related (fun a b => Reader.Twin a.2 b.2) (mergeStep recurse kind a)
      (mergeStep recurse kind b) := by
  refine twin.readTag.bind ?_
  rintro ⟨tag, r⟩ ⟨_, s⟩ ⟨rfl, twin⟩
  simp only
  split
  · exact runArm_twin twin
  · exact (twin.skip tag.wireType).bind fun _ _ twin => .ok twin

abbrev Frame (T : Table) := NestFrame T.Kind

/-- The loop state at which a frame's decode starts. -/
def startOf (frame : Frame T) : T.Data frame.kind × Reader := (T.start frame.kind, frame.reader)

/-- From a loop state, a pass reads a body that its arm opens. -/
structure Meets {D : Type} (arms : UInt32 → WireType → Option (Arm T.Data D)) (cursor : Reader)
    (opening : Opening) (r : Reader) (body : Slice) (kind : T.Kind) : Prop where
  more : cursor.isEmpty = false
  reads : ∃ tag after set, cursor.readTag = .ok (tag, after) ∧
    arms tag.fieldNumber tag.wireType = some (.message opening kind set) ∧
    after.readLengthDelimited = .ok (body, r)

/-- Decoding a frame reads a body that one of its arms opens. -/
def Extracts (parent : Frame T) (opening : Opening) (r : Reader) (body : Slice) (kind : T.Kind) :
    Prop :=
  ∃ visited state, Path (fun state => !state.2.isEmpty) (mergeStep decode parent.kind)
    (startOf parent) visited state ∧ Meets (T.arms parent.kind) state.2 opening r body kind

theorem Meets.kept {D : Type} {arms : UInt32 → WireType → Option (Arm T.Data D)} {cursor r : Reader}
    {opening : Opening} {body : Slice} {kind : T.Kind} (meets : Meets arms cursor opening r body kind) :
    Reader.Kept cursor r := by
  obtain ⟨_, _, _, _, readTag, _, readBody⟩ := meets
  exact (Reader.readTag_kept readTag).trans (Reader.readLengthDelimited_kept readBody)

/-- Every twin of a cursor that meets a body opens it too. -/
theorem Meets.twin {kind child : T.Kind} {recurse : T.Recurse} {a b : T.Data kind × Reader}
    {opening : Opening} {r : Reader} {body : Slice}
    (meets : Meets (T.arms kind) a.2 opening r body child) (twin : Reader.Twin b.2 a.2)
    {next : T.Data kind × Reader} (moved : mergeStep recurse kind b = .ok next) :
    ∃ sub value, opening.open r body = .ok sub ∧ recurse child sub = .ok value := by
  obtain ⟨_, tag, after, set, readTag, arm, readBody⟩ := meets
  simp only [mergeStep, Outcome.bind_eq_ok, Prod.exists] at moved
  obtain ⟨tag', after', readTag', moved⟩ := moved
  have agreed := twin.readTag _ _ readTag' readTag
  have sameTag : tag' = tag := agreed.value
  subst tag'
  rw [arm] at moved
  simp only [runArm, Outcome.bind_eq_ok, Prod.exists] at moved
  obtain ⟨body', r', readBody', sub, opened, value, decoded, _⟩ := moved
  have bodies := agreed.twin.readLengthDelimited _ _ readBody' readBody
  have sameBody : body' = body := bodies.value
  subst body'
  refine ⟨sub, value, ?_, decoded⟩
  rw [← opened]
  cases opening with
  | nested =>
    have same : Reader.Twin r' r := bodies.twin
    simp only [Opening.open, Reader.nested, same.limits, same.depth]
  | fresh => rfl

/-- A pass that meets a body does what opening and decoding it does. -/
theorem Meets.fails {kind child : T.Kind} {recurse : T.Recurse} {state : T.Data kind × Reader}
    {opening : Opening} {r : Reader} {body : Slice}
    (meets : Meets (T.arms kind) state.2 opening r body child) {error : Error}
    (failed : (opening.open r body >>= recurse child) = .err error) :
    mergeStep recurse kind state = .err error := by
  obtain ⟨_, tag, after, set, readTag, arm, readBody⟩ := meets
  simp only [mergeStep, readTag, Outcome.ok_bind, arm, runArm, readBody]
  cases opened : opening.open r body with
  | ok sub =>
    rw [opened, Outcome.ok_bind] at failed
    rw [Outcome.ok_bind, failed, Outcome.err_bind]
  | err | panic | outOfFuel =>
    rw [opened] at failed
    cases failed
    try rfl

theorem mergeStep_keyed (recurse : T.Recurse) (kind : T.Kind) (r : Reader) :
    Keyed (fun state => !state.2.isEmpty) (mergeStep recurse kind)
      (fun state => Reader.Kept r state.2) (fun state => state.2.pos) where
  keep _ _ held _ moved := held.trans (mergeStep_kept moved)
  agree s t s' t' held held' same moved moved' := by
    have twin : Reader.Twin s.2 t.2 := ⟨held.buf.trans held'.buf.symm, same,
      held.limits.trans held'.limits.symm, held.depth.trans held'.depth.symm⟩
    exact (mergeStep_twin twin _ _ moved moved').pos

/-- A decode that opens a body which cannot be decoded fails with its error. -/
theorem Extracts.fails {parent : Frame T} {opening : Opening} {r : Reader} {body : Slice}
    {kind : T.Kind} (start : parent.reader.AtStart)
    (extracts : Extracts parent opening r body kind) {error : Error}
    (failed : (opening.open r body >>= decode kind) = .err error) :
    decode parent.kind parent.reader = .err error := by
  obtain ⟨visited, state, path, meets⟩ := extracts
  have keyed := mergeStep_keyed decode parent.kind parent.reader
  have kept := path.invariant _ (Reader.Kept.refl _) keyed.keep
  have looped : parent.reader.drain (mergeStep decode parent.kind) (T.start parent.kind) =
      .err error := by
    refine path.loop_failed_of_keyed keyed (Reader.Kept.refl _) (by simp [meets.more])
      (meets.fails failed) (fun s next held same moved => ?_) (fun s held more => ?_)
    · have twin : Reader.Twin s.2 state.2 := ⟨held.buf.trans kept.buf.symm, same,
        held.limits.trans kept.limits.symm, held.depth.trans kept.depth.symm⟩
      obtain ⟨sub, value, opened, decoded⟩ := meets.twin twin moved
      rw [opened, Outcome.ok_bind, decoded] at failed
      cases failed
    · have inside := (Reader.isEmpty_eq_false_iff s.2).mp (by simpa using more)
      rw [held.buf] at inside
      rw [Reader.remaining, start.pos]
      exact inside
  rw [decode_eq, mergeWith, looped, Outcome.err_bind]

variable (T) in
/-- The nesting of a table's decoders. -/
def nesting : Nesting where
  Kind := T.Kind
  Extracts := Extracts
  Fails frame := decode frame.kind frame.reader = .err .depthLimitExceeded
  kept := by
    rintro parent opening r body kind ⟨_, _, path, meets⟩
    have held := path.invariant _ (Reader.Kept.refl _)
      (mergeStep_keyed decode parent.kind parent.reader).keep
    exact held.trans meets.kept
  refused start extracts refused := extracts.fails start (by rw [refused, Outcome.err_bind])
  passed start extracts opened failed := extracts.fails start (by rw [opened]; exact failed)

end TptProto.Core.Table
