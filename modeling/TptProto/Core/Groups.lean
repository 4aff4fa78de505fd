import TptProto.Core.Chunks
import TptProto.Core.Progress

/-! Skipping legacy groups. What is skipped is the wire grammar of groups, except that the
number of the end tag is never compared with the number of the start tag. -/

namespace TptProto.Core

open TptProto.Foundation

/-- The inside of a group and its end tag: fields and groups, nested as deep as `enters` allows,
where `agree` relates the numbers of a start tag and its end tag. The indices are the depth,
the number of the end tag, how many tags there are, and the bytes. -/
inductive GroupTail (agree : UInt32 → UInt32 → Prop) (enters : Nat → Prop)
    (limits : DecoderLimits) : Nat → UInt32 → Nat → List UInt8 → Prop where
  | ends {depth : Nat} {tag : Tag} {bytes : List UInt8} (last : TagBytes tag bytes)
      (kind : tag.wireType = .endGroup) :
      GroupTail agree enters limits depth tag.fieldNumber 1 bytes
  | field {depth tags : Nat} {stop : UInt32} {tag : Tag} {value : UnknownValue}
      {tagBytes valueBytes rest : List UInt8} (first : TagBytes tag tagBytes)
      (wire : ValueBytes value valueBytes) (kind : value.wireType = tag.wireType)
      (fits : value.Fits limits) (later : GroupTail agree enters limits depth stop tags rest) :
      GroupTail agree enters limits depth stop (1 + tags) (tagBytes ++ (valueBytes ++ rest))
  | group {depth tags innerTags : Nat} {stop closing : UInt32} {tag : Tag}
      {tagBytes inside rest : List UInt8} (first : TagBytes tag tagBytes)
      (kind : tag.wireType = .startGroup) (deep : enters (depth + 1))
      (inner : GroupTail agree enters limits (depth + 1) closing innerTags inside)
      (same : agree tag.fieldNumber closing)
      (later : GroupTail agree enters limits depth stop tags rest) :
      GroupTail agree enters limits depth stop (1 + (innerTags + tags))
        (tagBytes ++ (inside ++ rest))

/-- After the start tag of a group with a number stand its fields and an end tag of that number,
nested within the limit on depth. -/
def Reader.Closes (r : Reader) (number : UInt32) (r' : Reader) : Prop :=
  ∃ tags bytes, r.depth.toNat + 1 ≤ r.limits.maxDepth.toNat ∧
    GroupTail Eq (· ≤ r.limits.maxDepth.toNat) r.limits (r.depth.toNat + 1) number tags bytes ∧
    r.Passes bytes tags r'

/-- The same with end tags of any numbers, and with the depth counted in 32 bits. -/
def Reader.ClosesLoosely (r r' : Reader) : Prop :=
  ∃ stop tags bytes, UInt32.ofNat (r.depth.toNat + 1) ≤ r.limits.maxDepth ∧
    GroupTail (fun _ _ => True) (fun depth => UInt32.ofNat depth ≤ r.limits.maxDepth) r.limits
      (r.depth.toNat + 1) stop tags bytes ∧
    r.Passes bytes tags r'

/-- Skipping takes just the groups that are closed by their own number, and fails otherwise. -/
structure Reader.SkipsGroup (r : Reader) (number : UInt32) : Prop where
  skips : ∀ r', r.skip .startGroup = .ok r' ↔ r.Closes number r'
  fails : (∀ r', ¬ r.Closes number r') → ∃ error, r.skip .startGroup = .err error

/-- However the group after a start tag is closed, its numbers and its depth are right. -/
def Reader.ClosesOnly (r : Reader) (number : UInt32) : Prop :=
  ∀ r', r.ClosesLoosely r' → r.Closes number r'

section Grammar

variable {agree agree' : UInt32 → UInt32 → Prop} {enters enters' : Nat → Prop}
  {limits : DecoderLimits} {depth tags : Nat} {stop : UInt32} {bytes : List UInt8}

theorem GroupTail.tags_le (group : GroupTail agree enters limits depth stop tags bytes) :
    0 < tags ∧ tags ≤ bytes.length := by
  induction group with
  | ends last _ => exact ⟨Nat.one_pos, last.length_pos⟩
  | field first _ _ _ _ ih =>
    have := first.length_pos
    simp only [List.length_append]
    omega
  | group first _ _ _ _ _ inner later =>
    have := first.length_pos
    simp only [List.length_append]
    omega

theorem GroupTail.mono (group : GroupTail agree enters limits depth stop tags bytes)
    (wider : ∀ first last, agree first last → agree' first last)
    (deeper : ∀ depth, enters depth → enters' depth) :
    GroupTail agree' enters' limits depth stop tags bytes := by
  induction group with
  | ends last kind => exact .ends last kind
  | field first wire kind fits _ ih => exact .field first wire kind fits ih
  | group first kind deep _ same _ inner later =>
    exact .group first kind (deeper _ deep) inner (wider _ _ same) later

end Grammar

namespace Reader

variable {r r₁ r₂ : Reader} {bytes bytes' : List UInt8} {tags tags' : Nat}

/-- A value other than a group is skipped just where it can be read. -/
theorem skipInner_plain_iff {buf : Slice} {limits : DecoderLimits} (noWrap : NoWrap buf limits)
    (placed : Over buf limits r) {fuel : Nat} {wireType : WireType} {depth : UInt32}
    (plain : wireType ≠ .startGroup) :
    skipInner fuel wireType depth r = .ok r₁ ↔
      ∃ value, readUnknownValue wireType r = .ok (value, r₁) := by
  refine ⟨fun skipped => ?_, fun ⟨value, read⟩ => skipInner_of_read read fuel depth⟩
  unfold skipInner at skipped
  cases wireType with
  | varint | fixed32 | fixed64 =>
    simp only [Outcome.bind_eq_ok, Prod.exists, Outcome.ok.injEq] at skipped
    obtain ⟨value, _, read, rfl⟩ := skipped
    exact ⟨_, by rw [readUnknownValue, read]; rfl⟩
  | lengthDelimited =>
    simp only [Outcome.bind_eq_ok, Prod.exists] at skipped
    obtain ⟨len, next, read, _, admitted, moved⟩ := skipped
    have forward := readVarint_forward read
    have fits := admitted
    simp only [DecoderLimits.checkLength, DecoderLimits.check_eq_ok] at fits
    rw [forward.limits, placed.limits] at fits
    have length := noWrap.length placed read fits
    have inside := (advance_of_noWrap length moved).2.inside
    have small := next.buf.length_lt_usize
    have sum : usizeAdd next.pos len.toNat = next.pos + len.toNat := usizeAdd_of_lt (by omega)
    have part := @index_returns next next.pos (next.pos + len.toNat) (by omega) inside
    cases taken : next.index next.pos (next.pos + len.toNat) with
    | ok body =>
      refine ⟨.lengthDelimited body.bytes, ?_⟩
      simp only [readUnknownValue, readLengthDelimited, read, Outcome.ok_bind, admitted, sum]
      rw [if_neg (by omega), taken, Outcome.ok_bind, moved]
      rfl
    | err error =>
      unfold index at taken
      split at taken <;> cases taken
    | panic | outOfFuel =>
      rw [taken] at part
      exact part.elim
  | startGroup => exact absurd rfl plain
  | endGroup => cases skipped

theorem Passes.across {buf : Slice} {limits : DecoderLimits} (passes : r.Passes bytes tags r₁)
    (placed : Over buf limits r) : Over buf limits r₁ :=
  ⟨passes.moved.buf.trans placed.buf, passes.moved.limits.trans placed.limits, passes.solvent.bytes⟩

/-- A pass of the group loop reads the end tag and stops, or another tag and what it announces. -/
private theorem skipGroupStep_ok {skipField : WireType → Reader → Result Reader} {flag go : Bool}
    (step : skipGroupStep skipField (r, go) = .ok (r₂, flag)) :
    ∃ tag r₁, r.readTag = .ok (tag, r₁) ∧
      (tag.wireType = .endGroup ∧ r₂ = r₁ ∧ flag = false ∨
        tag.wireType ≠ .endGroup ∧ skipField tag.wireType r₁ = .ok r₂ ∧ flag = true) := by
  unfold skipGroupStep at step
  split at step
  · cases step
  · obtain ⟨⟨tag, r₁⟩, read, step⟩ := Outcome.bind_eq_ok.mp step
    refine ⟨tag, r₁, read, ?_⟩
    simp only at step
    by_cases last : tag.wireType = .endGroup
    · rw [if_pos last] at step
      cases step
      exact .inl ⟨last, rfl, rfl⟩
    · rw [if_neg last] at step
      obtain ⟨_, skipped, step⟩ := Outcome.bind_eq_ok.mp step
      cases step
      exact .inr ⟨last, skipped, rfl⟩

/-- A group is skipped by the loop, one level deeper, unless that is too deep. -/
private theorem skipInner_group {fuel : Nat} {depth : UInt32} :
    skipInner (fuel + 1) .startGroup depth r = .ok r₂ ↔
      depth + 1 ≤ r.limits.maxDepth ∧ ∃ flag,
        loop Prod.snd (skipGroupStep fun wireType => skipInner fuel wireType (depth + 1)) (fuel + 1)
          (r, true) = .ok (r₂, flag) := by
  rw [skipInner]
  simp only
  by_cases deep : depth + 1 > r.limits.maxDepth
  · rw [if_pos deep]
    simp only [reduceCtorEq, false_iff, not_and]
    intro shallow
    exact absurd deep (UInt32.not_lt.mpr shallow)
  · rw [if_neg deep]
    simp only [Outcome.bind_eq_ok, Prod.exists, Outcome.ok.injEq]
    constructor
    · rintro ⟨_, flag, finished, rfl⟩
      exact ⟨UInt32.not_lt.mp deep, flag, finished⟩
    · rintro ⟨_, flag, finished⟩
      exact ⟨_, flag, finished, rfl⟩

variable {buf : Slice} {limits : DecoderLimits}

/-- The fields and groups that the loose grammar admits under some limits. -/
private abbrev Loose (limits : DecoderLimits) : Nat → UInt32 → Nat → List UInt8 → Prop :=
  GroupTail (fun _ _ => True) (fun depth => UInt32.ofNat depth ≤ limits.maxDepth) limits

private theorem ofNat_succ (depth : Nat) : UInt32.ofNat (depth + 1) = UInt32.ofNat depth + 1 :=
  UInt32.ofNat_add depth 1

/-- One level of the loop, when what it skips as a group is one. -/
private theorem level_loose (noWrap : NoWrap buf limits) {depth fuel : Nat}
    (nested : ∀ {r r₂ : Reader}, Over buf limits r → r.Solvent →
      skipInner fuel .startGroup (UInt32.ofNat depth) r = .ok r₂ →
      UInt32.ofNat (depth + 1) ≤ limits.maxDepth ∧
        ∃ closing tags bytes, Loose limits (depth + 1) closing tags bytes ∧ r.Passes bytes tags r₂)
    {passes : Nat} {flag : Bool} (placed : Over buf limits r) (solvent : r.Solvent)
    (finished : loop Prod.snd (skipGroupStep fun wireType =>
      skipInner fuel wireType (UInt32.ofNat depth)) passes (r, true) = .ok (r₂, flag)) :
    ∃ stop tags bytes, Loose limits depth stop tags bytes ∧ r.Passes bytes tags r₂ := by
  induction passes generalizing r with
  | zero => simp [loop] at finished
  | succ passes later =>
    rw [loop_step rfl] at finished
    obtain ⟨⟨next, again⟩, step, finished⟩ := Outcome.bind_eq_ok.mp finished
    obtain ⟨tag, r₁, read, here⟩ := skipGroupStep_ok step
    obtain ⟨tagBytes, first, passed⟩ := (readTag_passes solvent).mp read
    have placed₁ := passed.across placed
    rcases here with ⟨last, rfl, rfl⟩ | ⟨_, skipped, rfl⟩
    · rw [loop_done rfl] at finished
      cases finished
      exact ⟨_, _, _, .ends first last, passed⟩
    · by_cases group : tag.wireType = .startGroup
      · rw [group] at skipped
        obtain ⟨deep, closing, innerTags, inside, inner, across⟩ := nested placed₁ passed.solvent skipped
        obtain ⟨stop, tags, rest, there, onward⟩ :=
          later (across.across placed₁) across.solvent finished
        exact ⟨stop, _, _, .group first group deep inner trivial there, passed.append (across.append onward)⟩
      · obtain ⟨value, readValue⟩ := (skipInner_plain_iff noWrap placed₁ group).mp skipped
        obtain ⟨valueBytes, kind, wire, fits, across⟩ := (readValue_passes passed.solvent).mp readValue
        obtain ⟨stop, tags, rest, there, onward⟩ :=
          later (across.across placed₁) across.solvent finished
        rw [placed₁.limits] at fits
        have whole := passed.append (across.append onward)
        rw [Nat.zero_add] at whole
        exact ⟨stop, _, _, .field first wire kind fits there, whole⟩

/-- What is skipped as a group is one of the loose grammar, by induction on the nesting that the
budget allows. -/
private theorem skipInner_loose (noWrap : NoWrap buf limits) {fuel depth : Nat}
    (placed : Over buf limits r) (solvent : r.Solvent)
    (skipped : skipInner fuel .startGroup (UInt32.ofNat depth) r = .ok r₂) :
    UInt32.ofNat (depth + 1) ≤ limits.maxDepth ∧
      ∃ closing tags bytes, Loose limits (depth + 1) closing tags bytes ∧ r.Passes bytes tags r₂ := by
  induction fuel generalizing depth r r₂ with
  | zero => cases skipped
  | succ fuel nested =>
    obtain ⟨deep, flag, finished⟩ := skipInner_group.mp skipped
    rw [← ofNat_succ] at deep finished
    rw [placed.limits] at deep
    exact ⟨deep, level_loose noWrap nested placed solvent finished⟩

/-- A tag that stands at the cursor is read by a pass. -/
private theorem skipGroupStep_tag {skipField : WireType → Reader → Result Reader} {tag : Tag}
    (first : TagBytes tag bytes) (solvent : r.Solvent) (passed : r.Passes bytes 1 r₁) :
    skipGroupStep skipField (r, true) =
      if tag.wireType = .endGroup then .ok (r₁, false)
      else skipField tag.wireType r₁ >>= fun r => .ok (r, true) := by
  have read := (readTag_passes solvent).mpr ⟨bytes, first, passed⟩
  have filled : r.isEmpty = false := by
    obtain ⟨rest, here⟩ := passed.here
    refine Bool.eq_false_iff.mpr fun empty => ?_
    have none := (isEmpty_iff r).mp empty
    have := first.length_pos
    simp_all
  simp only [skipGroupStep, filled, read, Outcome.ok_bind, Bool.false_eq_true, if_false]

/-- A group of the loose grammar is skipped by the loop, if the budget covers its bytes. -/
private theorem loop_of_loose {depth tags fuel passes : Nat} {stop : UInt32} {bytes : List UInt8}
    (group : Loose limits depth stop tags bytes) (same : r.limits = limits) (solvent : r.Solvent)
    (passed : r.Passes bytes tags r₂) (enough : bytes.length ≤ fuel) (enough' : bytes.length ≤ passes) :
    loop Prod.snd (skipGroupStep fun wireType => skipInner fuel wireType (UInt32.ofNat depth)) passes
      (r, true) = .ok (r₂, false) := by
  induction group generalizing r r₂ fuel passes with
  | ends first last =>
    have := first.length_pos
    match passes, enough' with
    | 0, enough' => omega
    | passes + 1, _ =>
      rw [loop_step rfl, skipGroupStep_tag first solvent passed, if_pos last, Outcome.ok_bind,
        loop_done rfl]
  | @field depth tags stop tag value tagBytes valueBytes rest first wire kind fits later onward =>
    have long := first.length_pos
    simp only [List.length_append] at enough enough'
    have covered := later.tags_le.2
    obtain ⟨r₁, passed₁, passed'⟩ := passed.split solvent long
      (by rw [List.length_append]; omega)
    rw [← Nat.zero_add tags] at passed'
    obtain ⟨r', across, passed'⟩ := passed'.split passed₁.solvent (Nat.zero_le _) covered
    have limits₁ : r₁.limits = limits := passed₁.moved.limits.trans same
    have read := (readValue_passes passed₁.solvent).mpr ⟨_, kind, wire, limits₁ ▸ fits, across⟩
    have plain : tag.wireType ≠ .endGroup := by
      rw [← kind]
      cases value <;> nofun
    match passes, enough' with
    | 0, enough' => omega
    | passes + 1, enough' =>
      rw [loop_step rfl, skipGroupStep_tag first solvent passed₁, if_neg plain,
        skipInner_of_read read, Outcome.ok_bind, Outcome.ok_bind]
      exact onward (across.moved.limits.trans limits₁) across.solvent passed' (by omega) (by omega)
  | @group depth tags innerTags stop closing tag tagBytes inside rest first kind deep inner _ later
      nested onward =>
    have long := first.length_pos
    simp only [List.length_append] at enough enough'
    have covered := inner.tags_le.2
    have covered' := later.tags_le.2
    obtain ⟨r₁, passed₁, passed'⟩ := passed.split solvent long
      (by rw [List.length_append]; omega)
    obtain ⟨r', across, passed'⟩ := passed'.split passed₁.solvent covered covered'
    have limits₁ : r₁.limits = limits := passed₁.moved.limits.trans same
    match passes, enough', fuel, enough with
    | 0, enough', _, _ => omega
    | _, _, 0, enough => omega
    | passes + 1, enough', fuel + 1, enough =>
      have skipped : skipInner (fuel + 1) .startGroup (UInt32.ofNat depth) r₁ = .ok r' := by
        refine skipInner_group.mpr ⟨by rwa [← ofNat_succ, limits₁], false, ?_⟩
        rw [← ofNat_succ]
        exact nested limits₁ passed₁.solvent across (by omega) (by omega)
      rw [loop_step rfl, skipGroupStep_tag first solvent passed₁, if_neg (by rw [kind]; nofun), kind,
        skipped, Outcome.ok_bind, Outcome.ok_bind]
      exact onward (across.moved.limits.trans limits₁) across.solvent passed' (by omega) (by omega)

/-- A loosely closed group is skipped. -/
private theorem skip_of_loose (solvent : r.Solvent) (closes : r.ClosesLoosely r₂) :
    r.skip .startGroup = .ok r₂ := by
  obtain ⟨stop, tags, bytes, deep, group, passed⟩ := closes
  obtain ⟨rest, here⟩ := passed.here
  have short : bytes.length ≤ r.remaining := by
    have := inside_of_rest here
    simp only [remaining]
    omega
  have depth : UInt32.ofNat (r.depth.toNat + 1) = r.depth + 1 := by
    rw [ofNat_succ, UInt32.ofNat_toNat]
  rw [skip, skipInner_group, ← depth]
  exact ⟨deep, false, loop_of_loose group rfl solvent passed short (by omega)⟩

private theorem loose_of_skip (noWrap : NoWrap r.buf r.limits) (solvent : r.Solvent)
    (skipped : r.skip .startGroup = .ok r₂) : r.ClosesLoosely r₂ := by
  have depth : UInt32.ofNat r.depth.toNat = r.depth := UInt32.ofNat_toNat
  rw [skip, ← depth] at skipped
  obtain ⟨deep, closing, tags, bytes, group, passed⟩ :=
    skipInner_loose noWrap ⟨rfl, rfl, solvent.bytes⟩ solvent skipped
  exact ⟨closing, tags, bytes, deep, group, passed⟩

/-- A group closed by its own numbers is loosely closed. -/
private theorem Closes.loosely {number : UInt32} (closes : r.Closes number r₂) : r.ClosesLoosely r₂ := by
  obtain ⟨tags, bytes, deep, group, passed⟩ := closes
  have cut {depth : Nat} (fits : depth ≤ r.limits.maxDepth.toNat) :
      UInt32.ofNat depth ≤ r.limits.maxDepth := by
    have := r.limits.maxDepth.toNat_lt
    rw [UInt32.le_iff_toNat_le, UInt32.toNat_ofNat', Nat.mod_eq_of_lt (by omega)]
    exact fits
  exact ⟨number, tags, bytes, cut deep, group.mono (fun _ _ _ => trivial) fun _ => cut, passed⟩

end Reader

end TptProto.Core
