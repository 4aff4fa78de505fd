import TptProto.Core.Groups
import TptProto.Core.Table
import TptProto.Core.TableWritten

/-! Fields that a table's decoders do not know. Where no arm takes them they are skipped at any
place and at any level; an arm that takes one reads it as something else. -/

namespace TptProto.Core

open TptProto.Foundation

theorem DecoderLimits.Bounded.noWrap {limits : DecoderLimits} (bounded : limits.Bounded) (buf : Slice) :
    Reader.NoWrap buf limits := by
  intro pos len n decoded _ admitted wrapped
  have small := bounded _ admitted
  have inside := (decodeVarint_bounds decoded).2.2
  have held := buf.length_lt
  have sum : usizeAdd (pos + n) len.toNat = pos + n + len.toNat := usizeAdd_of_lt (by
    simp only [Slice.length] at *
    omega)
  rwa [sum] at wrapped

/-- An arm that opens no message. -/
def Arm.Flat {Kind : Type} {Data : Kind → Type} {D : Type} (arm : Arm Data D) : Prop :=
  ∀ opening child set, arm ≠ .message opening child set

/-- An arm that forgets what the message held. -/
def Arm.Overwrites {Kind : Type} {Data : Kind → Type} {D : Type} : Arm Data D → Prop
  | .string set => ∀ value self self', set value self = set value self'
  | .bytes set => ∀ value self self', set value self = set value self'
  | .int32 set => ∀ value self self', set value self = set value self'
  | .int64 set => ∀ value self self', set value self = set value self'
  | .uint32 set => ∀ value self self', set value self = set value self'
  | .uint64 set => ∀ value self self', set value self = set value self'
  | .bool set => ∀ value self self', set value self = set value self'
  | .float set => ∀ value self self', set value self = set value self'
  | .double set => ∀ value self self', set value self = set value self'
  | .message _ _ set => ∀ value self self', set value self = set value self'

namespace Table

variable {T : Table}

section Skipping

variable {recurse : T.Recurse} {kind : T.Kind}

variable (T) in
/-- A tag that no arm takes, or that an arm for values of its wire type takes. -/
def Plain (kind : T.Kind) (tag : Tag) : Prop :=
  ∀ arm, T.arms kind tag.fieldNumber tag.wireType = some arm → arm.wireType = tag.wireType

theorem Typed.plain {tag : Tag} (typed : T.Typed kind tag) : T.Plain kind tag := by
  obtain ⟨arm, found, natural⟩ := typed
  intro other found'
  obtain rfl := Option.some.inj (found.symm.trans found')
  exact natural

/-- On a plain tag a pass of the decoder reads an item and takes it or leaves it. -/
theorem mergeStep_eq_ok_iff {state next : T.Data kind × Reader} (solvent : state.2.Solvent)
    (bounded : state.2.limits.Bounded)
    (plain : ∀ tag r, state.2.readTag = .ok (tag, r) →
      T.Plain kind tag ∧ tag.wireType ≠ .startGroup) :
    mergeStep recurse kind state = .ok next ↔
      fieldStep id Tag.wireType (pass recurse kind) state = .ok next := by
  simp only [mergeStep, fieldStep, Outcome.mapErr_id, Outcome.bind_eq_ok, Prod.exists]
  refine exists_congr fun tag => exists_congr fun r => and_congr_right fun read => ?_
  obtain ⟨natural, single⟩ := plain tag r read
  cases found : T.arms kind tag.fieldNumber tag.wireType with
  | some arm =>
    simp only [runArm_eq, natural arm found, pass, found, Outcome.bind_eq_ok, Prod.exists]
  | none =>
    have placed : Reader.Over state.2.buf state.2.limits r :=
      (Reader.readTag_forward read).over ⟨rfl, rfl, solvent.bytes⟩
    simp only [pass, found, Reader.skip, Outcome.bind_eq_ok, Outcome.ok.injEq, exists_eq_left',
      Reader.skipInner_plain_iff (bounded.noWrap _) placed single]
    constructor
    · rintro ⟨r', ⟨value, readValue⟩, rfl⟩
      exact ⟨value, r', readValue, rfl⟩
    · rintro ⟨value, r', readValue, rfl⟩
      exact ⟨r', ⟨value, readValue⟩, rfl⟩

variable (T) in
/-- What is left to read is a list of items of plain tags. -/
structure PlainAhead (kind : T.Kind) (r : Reader) : Prop where
  solvent : r.Solvent
  bounded : r.limits.Bounded
  left : ∃ left, Items Tag.wireType left r.rest ∧ ∀ item ∈ left, T.Plain kind item.tag

private theorem PlainAhead.step {state next : T.Data kind × Reader}
    (ahead : T.PlainAhead kind state.2) (moved : mergeStep recurse kind state = .ok next) :
    fieldStep id Tag.wireType (pass recurse kind) state = .ok next ∧ T.PlainAhead kind next.2 := by
  obtain ⟨left, wire, plain⟩ := ahead.left
  have also : fieldStep id Tag.wireType (pass recurse kind) state = .ok next := by
    refine (mergeStep_eq_ok_iff ahead.solvent ahead.bounded fun tag r' read => ?_).mp moved
    obtain ⟨item, member, rfl⟩ := tag_of_readTag ahead.solvent wire read
    refine ⟨plain item member, fun group => ?_⟩
    have kind := items_kind wire item member
    have single := item.value.wireType_not_group
    rw [kind, group] at single
    cases single
  obtain ⟨item, bytes, tail, split, head, _, _, advanced, solvent'⟩ :=
    (fieldStep_eq_ok_iff ahead.solvent).mp also
  refine ⟨also, solvent', by rw [advanced.limits]; exact ahead.bounded, ?_⟩
  rw [advanced.rest_eq, split, List.drop_left]
  cases left with
  | nil =>
    rw [sequence_nil_iff.mp wire] at split
    have positive := head.length_pos
    rw [(List.nil_eq_append_iff.mp split).1] at positive
    cases positive
  | cons first later =>
    obtain ⟨_, rest, whole, firstOk, others⟩ := sequence_cons_iff.mp wire
    rw [whole] at split
    obtain ⟨_, _, rfl⟩ := firstOk.unique head split
    exact ⟨later, others, fun item member => plain item (List.mem_cons_of_mem _ member)⟩

/-- Items of plain tags are decoded exactly within the budgets and to what they do in turn. -/
theorem decode_plain_iff {r : Reader} (solvent : r.Solvent) (bounded : r.limits.Bounded)
    {items : List Item} {final : T.Data kind} (wire : Items Tag.wireType items r.rest)
    (plain : ∀ item ∈ items, T.Plain kind item.tag) :
    decode kind r = .ok final ↔
      Affords r items ∧ items.foldlM (pass decode kind r.limits r.depth) (T.start kind) = .ok final := by
  refine ⟨fun decoded => ?_, fun ⟨affords, folded⟩ => decode_passes solvent wire affords folded⟩
  rw [decode_eq, mergeWith] at decoded
  obtain ⟨⟨_, r'⟩, drained, same⟩ := Outcome.bind_eq_ok.mp decoded
  cases same
  obtain ⟨visited, run, bound⟩ := loop_eq_ok_iff.mp drained
  have run' := run.mono_of (fun state => T.PlainAhead kind state.2) ⟨solvent, bounded, items, wire, plain⟩
    fun _ _ ahead moved => ahead.step moved
  obtain ⟨items', wire', affords, folded⟩ :=
    (drain_fieldStep_eq_ok_iff id solvent).mp ⟨r', loop_eq_ok_iff.mpr ⟨visited, run', bound⟩⟩
  obtain rfl := wire.unique (item_delimited _) wire'
  exact ⟨affords, folded⟩

end Skipping

section Extras

variable (T) in
/-- The wire type that each field of a message is declared with; an arm takes it as such. -/
structure Schema where
  declared : T.Kind → UInt32 → Option WireType
  taken : ∀ {kind number wireType}, declared kind number = some wireType →
    ∃ arm, T.arms kind number wireType = some arm ∧ arm.wireType = wireType

/-- Well-formed fields that are not declared, for each kind of message. -/
structure Extras (schema : T.Schema) where
  added : T.Kind → Item → Prop
  small : ∀ {kind item}, added kind item → item.tag.fieldNumber.toNat < 2 ^ 29
  natural : ∀ {kind item}, added kind item → item.value.wireType = item.tag.wireType
  fits : ∀ {kind item}, added kind item → item.value.Fits .default
  undeclared : ∀ {kind item}, added kind item →
    schema.declared kind item.tag.fieldNumber ≠ some item.tag.wireType

variable {schema : T.Schema} {extras : T.Extras schema}

/-- The second list is the first, with extra fields at any places of the message and of the
messages in it. -/
inductive Mixed (extras : T.Extras schema) : T.Kind → List Item → List Item → Prop where
  | nil {kind : T.Kind} : Mixed extras kind [] []
  | extra {kind : T.Kind} {item : Item} {base whole : List Item} (added : extras.added kind item)
      (rest : Mixed extras kind base whole) : Mixed extras kind base (item :: whole)
  | field {kind : T.Kind} {item : Item} {base whole : List Item}
      (declared : schema.declared kind item.tag.fieldNumber = some item.tag.wireType)
      (flat : ∀ arm, T.arms kind item.tag.fieldNumber item.tag.wireType = some arm → arm.Flat)
      (rest : Mixed extras kind base whole) : Mixed extras kind (item :: base) (item :: whole)
  | message {kind child : T.Kind} {tag : Tag} {opening : Opening}
      {set : T.Data child → T.Data kind → T.Data kind} {body body' : List UInt8}
      {inner inner' base whole : List Item}
      (declared : schema.declared kind tag.fieldNumber = some tag.wireType)
      (arm : T.arms kind tag.fieldNumber tag.wireType = some (.message opening child set))
      (wire : Items Tag.wireType inner body) (wire' : Items Tag.wireType inner' body')
      (inside : Mixed extras child inner inner') (rest : Mixed extras kind base whole) :
      Mixed extras kind (⟨tag, .lengthDelimited body⟩ :: base) (⟨tag, .lengthDelimited body'⟩ :: whole)

/-- An encoding with extra fields in it is decoded like the encoding, exactly within the limits. -/
def Extras.Skipped (extras : T.Extras schema) (kind : T.Kind)
    (decode : Slice → Result (T.Data kind)) : Prop :=
  ∀ (base whole : Slice) (items items' : List Item) (value : T.Data kind),
    Items Tag.wireType items base.bytes → Items Tag.wireType items' whole.bytes →
    Mixed extras kind items items' → decode base = .ok value →
    (decode whole = .ok value ↔ T.WithinLimits .default 0 kind whole.bytes)

/-- No arm takes the extra fields. -/
def Extras.Untaken (extras : T.Extras schema) : Prop :=
  ∀ kind item, extras.added kind item → T.arms kind item.tag.fieldNumber item.tag.wireType = none

variable {kind : T.Kind} {base whole : List Item}

theorem Mixed.typed (mixed : Mixed extras kind base whole) : ∀ item ∈ base, T.Typed kind item.tag := by
  induction mixed with
  | nil => simp
  | extra _ _ ih => exact ih
  | field declared _ _ ih => exact List.forall_mem_cons.mpr ⟨schema.taken declared, ih⟩
  | message declared _ _ _ _ _ _ ih => exact List.forall_mem_cons.mpr ⟨schema.taken declared, ih⟩

theorem Mixed.plain (untaken : extras.Untaken) (mixed : Mixed extras kind base whole) :
    ∀ item ∈ whole, T.Plain kind item.tag := by
  induction mixed with
  | nil => simp
  | @extra kind item _ _ added _ ih =>
    refine List.forall_mem_cons.mpr ⟨fun arm found => ?_, ih⟩
    rw [untaken kind item added] at found
    cases found
  | field declared _ _ ih =>
    exact List.forall_mem_cons.mpr ⟨Typed.plain (schema.taken declared), ih⟩
  | message declared _ _ _ _ _ _ ih =>
    exact List.forall_mem_cons.mpr ⟨Typed.plain (schema.taken declared), ih⟩

/-- What the limits ask of the items of a message, besides their number and lengths. -/
structure Fitting (limits : DecoderLimits) (depth : UInt32) (kind : T.Kind) (item : Item) : Prop where
  string : ∀ set, T.arms kind item.tag.fieldNumber item.tag.wireType = some (.string set) →
    DecoderLimits.within limits.maxStringLen item.value.payload.length = true
  shallow : ∀ child set,
    T.arms kind item.tag.fieldNumber item.tag.wireType = some (.message .nested child set) →
    depth + 1 ≤ limits.maxDepth
  body : ∀ opening child set,
    T.arms kind item.tag.fieldNumber item.tag.wireType = some (.message opening child set) →
    T.WithinLimits (opening.limits limits) (opening.depth depth) child item.value.payload

/-- A buffer of items is within the limits exactly when a reader affords them and each fits. -/
theorem withinLimits_iff {r : Reader} (start : r.AtStart) {items : List Item}
    (wire : Items Tag.wireType items r.rest) :
    T.WithinLimits r.limits r.depth kind r.rest ↔
      Affords r items ∧ ∀ item ∈ items, Fitting (T := T) r.limits r.depth kind item := by
  constructor
  · intro within
    cases within with
    | intro items' wire' total fields lengths strings depths bodies =>
      obtain rfl := wire.unique (item_delimited _) wire'
      refine ⟨⟨lengths, ?_, ?_⟩, fun item member =>
        ⟨strings item member, depths item member, bodies item member⟩⟩
      · rw [start.bytesRead, Nat.zero_add]
        exact total
      · rw [start.fieldCount, Nat.zero_add, Nat.mul_one]
        exact fields
  · rintro ⟨affords, fitting⟩
    have total := affords.bytes
    have fields := affords.fields
    rw [start.bytesRead, Nat.zero_add] at total
    rw [start.fieldCount, Nat.zero_add, Nat.mul_one] at fields
    exact .intro items wire total fields affords.each (fun item member => (fitting item member).string)
      (fun item member => (fitting item member).shallow) fun item member => (fitting item member).body

theorem payload_le_of_value {value : UnknownValue} {bytes : List UInt8} (wire : ValueBytes value bytes) :
    value.payload.length ≤ bytes.length := by
  cases wire with
  | lengthDelimited _ _ => simp [UnknownValue.payload]
  | _ => exact Nat.zero_le _

theorem payload_le_of_items {wireOf : Tag → WireType} {items : List Item} {bytes : List UInt8}
    (wire : Items wireOf items bytes) : ∀ item ∈ items, item.value.payload.length ≤ bytes.length := by
  induction wire with
  | nil => simp
  | cons head _ ih =>
    obtain ⟨tagBytes, _, valueBytes, rfl, _, _, _, _, value⟩ := head
    refine List.forall_mem_cons.mpr ⟨?_, fun item member => ?_⟩
    · have short := payload_le_of_value value
      simp only [List.length_append]
      omega
    · have inside := ih item member
      rw [List.length_append]
      omega

private theorem taken_flat {recurse : T.Recurse} {arm : Arm T.Data (T.Data kind)}
    {limits : DecoderLimits} {depth : UInt32} {self next : T.Data kind} {value : UnknownValue}
    (flat : arm.Flat) (taken : takeArm recurse arm limits depth self value = .ok next) :
    (∀ set, arm = .string set → DecoderLimits.within limits.maxStringLen value.payload.length = true) ∧
      ∀ opening child set, arm ≠ .message opening child set := by
  refine ⟨?_, flat⟩
  rintro set rfl
  cases value with
  | lengthDelimited body =>
    simp only [takeArm, Outcome.bind_eq_ok, DecoderLimits.checkString, DecoderLimits.check_eq_ok] at taken
    obtain ⟨_, short, _⟩ := taken
    exact short
  | _ => cases taken

/-- The reader that an arm opens over a body. -/
private theorem opened_over {opening : Opening} {limits : DecoderLimits} {depth : UInt32} {sub : Reader}
    {body : List UInt8} (sized : body.length < 2 ^ 63)
    (opened : opening.openAt limits depth (.ofBytes body) = .ok sub) :
    sub.AtStart ∧ sub.rest = body ∧ sub.limits = opening.limits limits ∧
      sub.depth = opening.depth depth := by
  have shallow : opening = .nested → depth + 1 ≤ limits.maxDepth := by
    rintro rfl
    exact (Reader.nestedAt_eq_ok_iff.mp opened).1
  obtain ⟨sub', opened', start, buf, sameLimits, sameDepth⟩ := opening.openAt_ok (.ofBytes body) shallow
  obtain rfl := Outcome.ok.inj (opened'.symm.trans opened)
  refine ⟨start, ?_, sameLimits, sameDepth⟩
  rw [Reader.rest, buf, start.pos, List.drop_zero, Slice.bytes_ofBytes sized]

/-- What a whole message takes fits the limits, at every level. -/
private theorem Mixed.fitting (untaken : extras.Untaken) (mixed : Mixed extras kind base whole)
    {limits : DecoderLimits} (bounded : limits.Bounded)
    {depth : UInt32} {self final : T.Data kind}
    (sized : ∀ item ∈ whole, item.value.payload.length < 2 ^ 63)
    (folded : whole.foldlM (pass decode kind limits depth) self = .ok final) :
    ∀ item ∈ whole, Fitting (T := T) limits depth kind item := by
  induction mixed generalizing limits depth with
  | nil => simp
  | @extra kind item _ _ added _ ih =>
    have none := untaken kind item added
    rw [List.foldlM_cons, pass, none] at folded
    obtain ⟨_, later⟩ := List.forall_mem_cons.mp sized
    exact List.forall_mem_cons.mpr ⟨⟨by simp [none], by simp [none], by simp [none]⟩,
      ih bounded later folded⟩
  | @field kind item _ _ declared flat _ ih =>
    obtain ⟨arm, found, _⟩ := schema.taken declared
    rw [List.foldlM_cons, pass, found] at folded
    obtain ⟨next, taken, folded⟩ := Outcome.bind_eq_ok.mp folded
    obtain ⟨_, later⟩ := List.forall_mem_cons.mp sized
    obtain ⟨string, single⟩ := taken_flat (flat arm found) taken
    refine List.forall_mem_cons.mpr ⟨⟨fun set same => ?_, fun child set same => ?_,
      fun opening child set same => ?_⟩, ih bounded later folded⟩
    · exact string set (Option.some.inj (found.symm.trans same))
    · exact absurd (Option.some.inj (found.symm.trans same)) (single _ _ _)
    · exact absurd (Option.some.inj (found.symm.trans same)) (single _ _ _)
  | @message kind child tag opening set body body' inner inner' _ _ declared arm wire wire' inside _
      nested ih =>
    rw [List.foldlM_cons, pass, arm] at folded
    simp only [takeArm, Outcome.bind_eq_ok] at folded
    obtain ⟨next, ⟨sub, opened, value, decoded, _⟩, folded⟩ := folded
    obtain ⟨here, later⟩ := List.forall_mem_cons.mp sized
    simp only [UnknownValue.payload] at here
    obtain ⟨start, rest, sameLimits, sameDepth⟩ := opened_over here opened
    have subBounded : sub.limits.Bounded := by
      rw [sameLimits]
      cases opening with
      | nested => exact bounded
      | fresh => exact DecoderLimits.default_bounded
    have within : T.WithinLimits (opening.limits limits) (opening.depth depth) child body' := by
      rw [← sameLimits, ← sameDepth, ← rest]
      rw [← rest] at wire'
      obtain ⟨affords, foldedInner⟩ :=
        (decode_plain_iff start.solvent subBounded wire' (inside.plain untaken)).mp decoded
      refine (withinLimits_iff start wire').mpr ⟨affords, ?_⟩
      refine nested subBounded (fun item member => ?_) foldedInner
      exact Nat.lt_of_le_of_lt (payload_le_of_items wire' item member) (by rwa [rest])
    refine List.forall_mem_cons.mpr ⟨⟨fun set' same => ?_, fun child' set' same => ?_,
      fun opening' child' set' same => ?_⟩, ih bounded later folded⟩
    · simp only [arm, Option.some.injEq, reduceCtorEq] at same
    · obtain ⟨rfl, _⟩ := Arm.message.inj (Option.some.inj (arm.symm.trans same))
      exact (Reader.nestedAt_eq_ok_iff.mp opened).1
    · obtain ⟨rfl, rfl, _⟩ := Arm.message.inj (Option.some.inj (arm.symm.trans same))
      exact within

/-- Extra fields that fit the limits change nothing, at every level. -/
private theorem Mixed.folds (untaken : extras.Untaken) (mixed : Mixed extras kind base whole)
    {limits : DecoderLimits} {depth : UInt32} {self final : T.Data kind}
    (sized : ∀ item ∈ base, item.value.payload.length < 2 ^ 63)
    (sized' : ∀ item ∈ whole, item.value.payload.length < 2 ^ 63)
    (fitting : ∀ item ∈ whole, Fitting (T := T) limits depth kind item)
    (folded : base.foldlM (pass decode kind limits depth) self = .ok final) :
    whole.foldlM (pass decode kind limits depth) self = .ok final := by
  induction mixed generalizing limits depth with
  | nil => exact folded
  | @extra kind item _ _ added _ ih =>
    rw [List.foldlM_cons, pass, untaken kind item added, Outcome.ok_bind]
    exact ih sized (List.forall_mem_cons.mp sized').2 (List.forall_mem_cons.mp fitting).2 folded
  | field _ _ _ ih =>
    rw [List.foldlM_cons] at folded ⊢
    obtain ⟨next, taken, folded⟩ := Outcome.bind_eq_ok.mp folded
    rw [taken, Outcome.ok_bind]
    exact ih (List.forall_mem_cons.mp sized).2 (List.forall_mem_cons.mp sized').2
      (List.forall_mem_cons.mp fitting).2 folded
  | @message kind child tag opening set body body' inner inner' _ _ declared arm wire wire' inside _
      nested ih =>
    obtain ⟨here, later⟩ := List.forall_mem_cons.mp sized
    obtain ⟨here', later'⟩ := List.forall_mem_cons.mp sized'
    obtain ⟨fits, others⟩ := List.forall_mem_cons.mp fitting
    simp only [UnknownValue.payload] at here here'
    rw [List.foldlM_cons, pass, arm] at folded ⊢
    simp only [takeArm, Outcome.bind_eq_ok, Outcome.ok.injEq] at folded
    obtain ⟨_, ⟨sub, opened, value, decoded, rfl⟩, folded⟩ := folded
    obtain ⟨start, rest, sameLimits, sameDepth⟩ := opened_over here opened
    obtain ⟨sub', opened', start', buf', sameLimits', sameDepth'⟩ :=
      opening.openAt_ok (.ofBytes body') fun same => fits.shallow child set (same ▸ arm)
    have rest' := (opened_over here' opened').2.1
    have within : T.WithinLimits sub'.limits sub'.depth child sub'.rest := by
      rw [sameLimits', sameDepth', rest']
      exact fits.body opening child set arm
    rw [← rest] at wire
    rw [← rest'] at wire'
    obtain ⟨affords, fitting'⟩ := (withinLimits_iff start' wire').mp within
    have foldedInner := ((decode_eq_ok_iff start.solvent wire inside.typed).mp decoded).2
    rw [sameLimits, sameDepth, ← sameLimits', ← sameDepth'] at foldedInner
    have decoded' : decode child sub' = .ok value := by
      refine decode_passes start'.solvent wire' affords (nested (fun item member => ?_)
        (fun item member => ?_) fitting' foldedInner)
      · exact Nat.lt_of_le_of_lt (payload_le_of_items wire item member) (by rwa [rest])
      · exact Nat.lt_of_le_of_lt (payload_le_of_items wire' item member) (by rwa [rest'])
    simp only [takeArm, opened', Outcome.ok_bind, decoded']
    exact ih later later' others folded

/-- Extra fields that no arm takes are skipped. -/
theorem Extras.Untaken.skipped (untaken : extras.Untaken) (kind : T.Kind) :
    extras.Skipped kind (decodeBytes kind) := by
  intro base whole items items' value wire wire' mixed decoded
  rw [decodeBytes_eq] at decoded ⊢
  have start := Reader.withLimits_atStart base .default
  have start' := Reader.withLimits_atStart whole .default
  have rest : (Reader.new base).rest = base.bytes := Reader.withLimits_rest base .default
  have rest' : (Reader.new whole).rest = whole.bytes := Reader.withLimits_rest whole .default
  rw [← rest] at wire
  rw [← rest'] at wire' ⊢
  have sized' : ∀ item ∈ items', item.value.payload.length < 2 ^ 63 := fun item member =>
    Nat.lt_of_le_of_lt (payload_le_of_items wire' item member) (by rw [rest']; exact whole.length_lt)
  have sized : ∀ item ∈ items, item.value.payload.length < 2 ^ 63 := fun item member =>
    Nat.lt_of_le_of_lt (payload_le_of_items wire item member) (by rw [rest]; exact base.length_lt)
  have folded := ((decode_eq_ok_iff start.solvent wire mixed.typed).mp decoded).2
  have exact_iff := @decode_plain_iff T kind (Reader.new whole) start'.solvent
    DecoderLimits.default_bounded items' value wire' (mixed.plain untaken)
  refine exact_iff.trans (Iff.trans ?_ (withinLimits_iff start' wire').symm)
  refine and_congr_right fun affords => ⟨fun folded' => ?_, fun fitting => ?_⟩
  · exact mixed.fitting untaken DecoderLimits.default_bounded sized' folded'
  · exact mixed.folds untaken sized sized' fitting folded

end Extras

section Misread

variable {schema : T.Schema} {extras : T.Extras schema} {recurse : T.Recurse} {kind : T.Kind}
  {R : Reader → Reader → Prop}

theorem runArm_overwrites {D : Type} {arm : Arm T.Data D} (overwrites : arm.Overwrites) (self self' : D)
    (r : Reader) : runArm recurse arm self r = runArm recurse arm self' r := by
  cases arm <;> simp only [runArm, overwrites _ self self']

/-- Before the same bytes an arm does the same. -/
theorem runArm_matched (together : Reader.Together R) {D : Type} {arm : Arm T.Data D} {self : D}
    {r s : Reader} (related : R r s) :
    Outcome.Related (Reader.Matched R) (runArm recurse arm self r) (runArm recurse arm self s) := by
  have set_matched {α : Type} {x y : Result (α × Reader)} (set : α → D → D)
      (read : Outcome.Related (Reader.Matched R) x y) :
      Outcome.Related (Reader.Matched R) (x >>= fun p => .ok (set p.1 self, p.2))
        (y >>= fun p => .ok (set p.1 self, p.2)) := by
    refine read.bind ?_
    rintro ⟨value, _⟩ ⟨_, _⟩ ⟨rfl, cursors⟩
    exact .ok ⟨rfl, cursors⟩
  cases arm with
  | string set => exact set_matched set (together.readStringOwned related)
  | bytes set => exact set_matched (fun body => set body.bytes) (together.readLengthDelimited related)
  | int32 set | int64 set | uint32 set | bool set =>
    exact set_matched set (Reader.Together.readAs (together.readVarint related))
  | uint64 set => exact set_matched set (together.readVarint related)
  | float set => exact set_matched set (together.readFixed32 related)
  | double set => exact set_matched set (together.readFixed64 related)
  | message opening child set =>
    refine (together.readLengthDelimited related).bind ?_
    rintro ⟨body, r'⟩ ⟨_, s'⟩ ⟨rfl, cursors⟩
    have level : R r' s' := cursors
    simp only [Opening.open_eq, together.limits level, together.depth level]
    refine (Outcome.Related.same _).bind ?_
    rintro sub _ rfl
    refine (Outcome.Related.same _).bind ?_
    rintro value _ rfl
    exact .ok ⟨rfl, cursors⟩

/-- Before the same bytes a pass does the same. -/
theorem mergeStep_matched (together : Reader.Together R) {a b : T.Data kind × Reader}
    (matched : Reader.Matched R a b) :
    Outcome.Related (Reader.Matched R) (mergeStep recurse kind a) (mergeStep recurse kind b) := by
  obtain ⟨self, r⟩ := a
  obtain ⟨_, s⟩ := b
  obtain ⟨rfl, related⟩ := matched
  refine (together.readTag related).bind ?_
  rintro ⟨tag, r'⟩ ⟨_, s'⟩ ⟨rfl, cursors⟩
  simp only
  split
  · exact runArm_matched together cursors
  · exact (together.skip cursors tag.wireType).bind fun _ _ cursors => .ok ⟨rfl, cursors⟩

/-- A pass whose arm overwrites the message does not depend on it. -/
theorem mergeStep_overwrites {r r' : Reader} {tag : Tag} {arm : Arm T.Data (T.Data kind)}
    (read : r.readTag = .ok (tag, r'))
    (found : T.arms kind tag.fieldNumber tag.wireType = some arm) (overwrites : arm.Overwrites)
    (self self' : T.Data kind) :
    mergeStep recurse kind (self, r) = mergeStep recurse kind (self', r) := by
  simp only [mergeStep, read, Outcome.ok_bind, found]
  exact runArm_overwrites overwrites self self' r'

/-- A message of one short field that opens nothing. -/
structure Encodes (schema : T.Schema) (kind : T.Kind) (item : Item) (value : T.Data kind) : Prop where
  declared : schema.declared kind item.tag.fieldNumber = some item.tag.wireType
  flat : ∀ arm, T.arms kind item.tag.fieldNumber item.tag.wireType = some arm → arm.Flat
  small : item.tag.fieldNumber.toNat < 2 ^ 29
  natural : item.value.wireType = item.tag.wireType
  short : item.value.payload.length ≤ 1024
  passes : pass decode kind .default 0 (T.start kind) item = .ok value

theorem fits_default_iff {value : UnknownValue} :
    value.Fits .default ↔ value.payload.length ≤ 16 * 1024 * 1024 := by
  cases value with
  | lengthDelimited body =>
    simp only [UnknownValue.Fits, UnknownValue.payload, DecoderLimits.default, DecoderLimits.within,
      decide_eq_true_eq]
  | _ => simp [UnknownValue.Fits, UnknownValue.payload]

private theorem sized_of_fits {value : UnknownValue} (fits : value.Fits .default) : value.Sized := by
  have short := fits_default_iff.mp fits
  cases value with
  | lengthDelimited body =>
    simp only [UnknownValue.payload] at short
    simp only [UnknownValue.Sized]
    omega
  | _ => trivial

/-- A field that fits the default limits is at most twenty bytes longer than they allow a body. -/
private theorem written_length {item : Item} (fits : item.value.Fits .default) :
    item.written.length ≤ 20 + 16 * 1024 * 1024 := by
  have short := fits_default_iff.mp fits
  have tag := (encodeVarint_length_bounds (Tag.raw item.tag.fieldNumber item.tag.wireType)).2
  have value : item.value.bytes.length ≤ 10 + item.value.payload.length := by
    cases item.value with
    | varint word => exact (encodeVarint_length_bounds word).2
    | fixed32 word => simp [UnknownValue.bytes, UnknownValue.payload, writeFixed32_length]
    | fixed64 word => simp [UnknownValue.bytes, UnknownValue.payload, writeFixed64_length]
    | lengthDelimited body =>
      have header := (encodeVarint_length_bounds (UInt64.ofNat body.length)).2
      simp only [UnknownValue.bytes, UnknownValue.payload, writeLengthDelimited, List.length_append]
      omega
  simp only [Item.written, Tag.encode, List.length_append]
  omega

/-- A few short fields are within the default limits. -/
private theorem affords_new {bytes : Slice} {items : List Item}
    (each : ∀ item ∈ items, item.value.Fits .default) (few : items.length ≤ 2)
    (short : bytes.length ≤ 64 * 1024 * 1024) : Affords (.new bytes) items where
  each := each
  bytes := by
    have rest : (Reader.new bytes).rest = bytes.bytes := Reader.withLimits_rest bytes .default
    rw [rest]
    simpa [Reader.new, Reader.withLimits, DecoderLimits.default, DecoderLimits.within,
      Slice.length] using short
  fields := by
    show decide (0 + items.length * 1 ≤ 1000000) = true
    exact decide_eq_true (by omega)

section Pair

variable {item extra : Item} {value : T.Data kind} {arm : Arm T.Data (T.Data kind)}

private theorem Encodes.fits (encodes : Encodes schema kind item value) : item.value.Fits .default :=
  fits_default_iff.mpr (Nat.le_trans encodes.short (by decide))

private theorem Encodes.writable (encodes : Encodes schema kind item value) :
    item.Writable Tag.wireType :=
  ⟨encodes.small, encodes.natural, sized_of_fits encodes.fits⟩

private theorem Encodes.decodes (encodes : Encodes schema kind item value) {base : Slice}
    (same : base.bytes = item.written) : decodeBytes kind base = .ok value := by
  have rest : (Reader.new base).rest = base.bytes := Reader.withLimits_rest base .default
  have wire : Items Tag.wireType [item] (Reader.new base).rest := by
    rw [rest, same]
    exact .single encodes.writable.bytes
  have typed : ∀ one ∈ [item], T.Typed kind one.tag := by
    intro one member
    rw [List.mem_singleton.mp member]
    exact schema.taken encodes.declared
  have short := written_length encodes.fits
  rw [decodeBytes_eq]
  refine (decode_eq_ok_iff (Reader.withLimits_solvent _ _) wire typed).mpr ⟨affords_new
    (by simpa using encodes.fits) (by simp) (by rw [Slice.length, same]; omega), ?_⟩
  rw [List.foldlM_cons]
  exact Outcome.bind_eq_ok.mpr ⟨value, encodes.passes, rfl⟩

/-- A field that opens nothing fits when its value does. -/
theorem fitting_of_flat {one : Item}
    (flat : ∀ arm, T.arms kind one.tag.fieldNumber one.tag.wireType = some arm → arm.Flat)
    (fits : one.value.Fits .default) : Fitting (T := T) .default 0 kind one where
  string _ _ := by
    simpa [DecoderLimits.default, DecoderLimits.within] using fits_default_iff.mp fits
  shallow _ _ found := absurd rfl (flat _ found _ _ _)
  body _ _ _ found := absurd rfl (flat _ found _ _ _)

/-- An extra field that opens nothing is a message within the limits. -/
theorem Extras.alone (extras : T.Extras schema) (added : extras.added kind item)
    (flat : ∀ arm, T.arms kind item.tag.fieldNumber item.tag.wireType = some arm → arm.Flat) :
    ∃ whole : Slice, 0 < whole.length ∧ Items Tag.wireType [item] whole.bytes ∧
      T.WithinLimits .default 0 kind whole.bytes := by
  have writable : item.Writable Tag.wireType :=
    ⟨extras.small added, extras.natural added, sized_of_fits (extras.fits added)⟩
  have short := written_length (extras.fits added)
  let whole : Slice := ⟨item.written, by omega⟩
  have wire : Items Tag.wireType [item] whole.bytes := .single writable.bytes
  have rest : (Reader.new whole).rest = whole.bytes := Reader.withLimits_rest whole .default
  refine ⟨whole, writable.bytes.length_pos, wire, ?_⟩
  rw [← rest] at wire ⊢
  refine (withinLimits_iff (Reader.withLimits_atStart whole .default) wire).mpr ⟨affords_new
    (by simpa using extras.fits added) (by simp) (Nat.le_trans short (by decide)), ?_⟩
  intro one member
  rw [List.mem_singleton.mp member]
  exact fitting_of_flat flat (extras.fits added)

private theorem Encodes.within (encodes : Encodes schema kind item value)
    (added : extras.added kind extra)
    (found : T.arms kind extra.tag.fieldNumber extra.tag.wireType = some arm) (flat : arm.Flat)
    {whole : Slice} (wire : Items Tag.wireType [item, extra] whole.bytes)
    (short : whole.length ≤ 64 * 1024 * 1024) : T.WithinLimits .default 0 kind whole.bytes := by
  have rest : (Reader.new whole).rest = whole.bytes := Reader.withLimits_rest whole .default
  have flatExtra : ∀ arm, T.arms kind extra.tag.fieldNumber extra.tag.wireType = some arm → arm.Flat := by
    intro other found'
    obtain rfl := Option.some.inj (found.symm.trans found')
    exact flat
  rw [← rest] at wire ⊢
  refine (withinLimits_iff (Reader.withLimits_atStart whole .default) wire).mpr ⟨affords_new
    (by simpa using ⟨encodes.fits, extras.fits added⟩) (by simp) short, ?_⟩
  simpa using ⟨fitting_of_flat encodes.flat encodes.fits,
    fitting_of_flat flatExtra (extras.fits added)⟩

/-- The first pass over two fields reads the first. -/
private theorem Encodes.first (encodes : Encodes schema kind item value) {whole : Slice}
    {later : List UInt8} (split : whole.bytes = item.written ++ later)
    (short : whole.length ≤ 64 * 1024 * 1024) :
    ∃ r : Reader, mergeStep decode kind (T.start kind, .new whole) = .ok (value, r) ∧
      r.Solvent ∧ r.rest = later ∧ r.limits = .default ∧ r.depth = 0 := by
  have rest : (Reader.withLimits whole .default).rest = item.written ++ later :=
    (Reader.withLimits_rest whole .default).trans split
  have solvent := Reader.withLimits_solvent whole .default
  have positive := encodes.writable.bytes.length_pos
  have held : item.written.length ≤ whole.length := by
    rw [Slice.length, split, List.length_append]
    omega
  obtain ⟨r, passed⟩ := Reader.exists_passes solvent rest positive
    (by simpa [Reader.withLimits, DecoderLimits.default, DecoderLimits.within] using
      Nat.le_trans held short) (show decide (0 + 1 ≤ 1000000) = true by decide)
  refine ⟨r, ?_, passed.solvent, by rw [passed.moved.rest_eq, rest, List.drop_left],
    passed.moved.limits, passed.moved.depth⟩
  refine mergeStep_of_pass ((fieldStep_eq_ok_iff solvent).mpr ⟨item, item.written, later, rest,
    encodes.writable.bytes, encodes.fits, encodes.passes, passed.moved, passed.solvent⟩)

/-- Two fields of a message, the first declared and the second extra, are decoded to the value of
the first where extra fields are skipped. -/
private theorem Encodes.run (encodes : Encodes schema kind item value) (added : extras.added kind extra)
    (found : T.arms kind extra.tag.fieldNumber extra.tag.wireType = some arm) (flat : arm.Flat)
    (skipped : extras.Skipped kind (decodeBytes kind)) :
    ∃ (r last : Reader) (visited : List (T.Data kind × Reader)), r.Solvent ∧
      r.rest = extra.written ∧ r.limits = .default ∧ r.depth = 0 ∧
      Run (fun state => !state.2.isEmpty) (mergeStep decode kind) (value, r) visited (value, last) := by
  have itemLength := written_length encodes.fits
  have extraLength := written_length (extras.fits added)
  have extraWritable : extra.Writable Tag.wireType :=
    ⟨extras.small added, extras.natural added, sized_of_fits (extras.fits added)⟩
  let base : Slice := ⟨item.written, by omega⟩
  let whole : Slice := ⟨item.written ++ extra.written, by rw [List.length_append]; omega⟩
  have short : whole.length ≤ 64 * 1024 * 1024 := by
    rw [Slice.length, List.length_append]
    omega
  have wire : Items Tag.wireType [item] base.bytes := .single encodes.writable.bytes
  have wire' : Items Tag.wireType [item, extra] whole.bytes :=
    .cons encodes.writable.bytes (.single extraWritable.bytes)
  have mixed : Mixed extras kind [item] [item, extra] :=
    .field encodes.declared encodes.flat (.extra added .nil)
  have decoded : decodeBytes kind whole = .ok value :=
    (skipped base whole _ _ value wire wire' mixed (encodes.decodes rfl)).mpr
      (encodes.within added found flat wire' short)
  obtain ⟨r, moved, solvent, rest, limits, depth⟩ := encodes.first rfl short
  rw [decodeBytes_eq, decode_eq, mergeWith] at decoded
  obtain ⟨⟨_, last⟩, drained, same⟩ := Outcome.bind_eq_ok.mp decoded
  cases same
  obtain ⟨visited, run, _⟩ := loop_eq_ok_iff.mp drained
  cases run with
  | done finished =>
    have empty := (Reader.isEmpty_iff _).mp (by simpa using finished)
    rw [show (Reader.new whole).rest = whole.bytes from Reader.withLimits_rest whole .default] at empty
    have positive := encodes.writable.bytes.length_pos
    rw [(List.append_eq_nil_iff.mp empty).1] at positive
    cases positive
  | step _ moved' rest' =>
    obtain rfl := Outcome.ok.inj (moved.symm.trans moved')
    exact ⟨r, last, _, solvent, rest, limits, depth, rest'⟩

end Pair

/-- Where an extra field is taken by an arm that overwrites the message, it is not skipped: no two
messages in front of it could both be kept. -/
theorem Extras.Skipped.unique {item first second : Item} {arm : Arm T.Data (T.Data kind)}
    {a b : T.Data kind} (skipped : extras.Skipped kind (decodeBytes kind)) (added : extras.added kind item)
    (found : T.arms kind item.tag.fieldNumber item.tag.wireType = some arm) (flat : arm.Flat)
    (overwrites : arm.Overwrites) (encodes : Encodes schema kind first a)
    (encodes' : Encodes schema kind second b) : a = b := by
  obtain ⟨r, last, visited, solvent, rest, limits, depth, run⟩ :=
    encodes.run added found flat skipped
  obtain ⟨r', last', visited', _, rest', limits', depth', run'⟩ :=
    encodes'.run added found flat skipped
  have level : Reader.Level r r' := ⟨rest.trans rest'.symm, limits.trans limits'.symm,
    depth.trans depth'.symm, limits ▸ DecoderLimits.default_bounded⟩
  have writable : item.Writable Tag.wireType :=
    ⟨extras.small added, extras.natural added, sized_of_fits (extras.fits added)⟩
  have wire : Items Tag.wireType [item] r.rest := by
    rw [rest]
    exact .single writable.bytes
  have more : r.isEmpty = false := by
    have positive := writable.bytes.length_pos
    rw [← rest, r.rest_length, Reader.remaining] at positive
    exact (r.isEmpty_eq_false_iff).mpr (by omega)
  have more' : r'.isEmpty = false := by rw [← Reader.level_together.isEmpty level, more]
  cases run with
  | done finished => simp [more] at finished
  | step _ moved rest =>
    cases run' with
    | done finished => simp [more'] at finished
    | step _ moved' rest' =>
      have overwritten : mergeStep decode kind (a, r) = mergeStep decode kind (b, r) := by
        obtain ⟨⟨tag, after⟩, read, _⟩ := Outcome.bind_eq_ok.mp moved
        obtain ⟨one, member, rfl⟩ := tag_of_readTag solvent wire read
        rw [List.mem_singleton.mp member] at read
        exact mergeStep_overwrites read found overwrites a b
      rw [overwritten] at moved
      have matched := mergeStep_matched Reader.level_together (a := (b, r)) (b := (b, r')) ⟨rfl, level⟩
        _ _ moved moved'
      exact (Run.related (fun s t both => by rw [Reader.level_together.isEmpty both.cursors])
        (fun s t both => mergeStep_matched Reader.level_together both) rest rest' matched).value

end Misread

end Table

end TptProto.Core
