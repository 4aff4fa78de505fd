import TptProto.Foundation.Outcome

/-! Finite maps as association lists in ascending key order, the observable
content of an ordered tree map. Operations are executable; a sorted list is
determined by its lookups. -/

namespace TptProto.Foundation.SortedMap

universe u v w

variable {κ : Type u} {α : Type v} {β : Type w} [DecidableEq κ]

def get? : List (κ × α) → κ → Option α
  | [], _ => none
  | (other, value) :: rest, key => if other = key then some value else get? rest key

def erase (entries : List (κ × α)) (key : κ) : List (κ × α) :=
  entries.filter fun entry => entry.1 ≠ key

def contains (entries : List (κ × α)) (key : κ) : Bool := (get? entries key).isSome

@[simp] theorem get?_nil (key : κ) : get? ([] : List (κ × α)) key = none := rfl

theorem get?_cons (entry : κ × α) (entries : List (κ × α)) (key : κ) :
    get? (entry :: entries) key = if entry.1 = key then some entry.2 else get? entries key := rfl

theorem mem_of_get? {entries : List (κ × α)} {key : κ} {value : α}
    (found : get? entries key = some value) : (key, value) ∈ entries := by
  induction entries with
  | nil => cases found
  | cons entry rest ih =>
    rw [get?_cons] at found
    split at found
    · rename_i same
      subst same
      cases found
      exact List.mem_cons_self
    · exact List.mem_cons_of_mem _ (ih found)

theorem get?_eq_none_iff {entries : List (κ × α)} {key : κ} :
    get? entries key = none ↔ ∀ entry ∈ entries, entry.1 ≠ key := by
  induction entries with
  | nil => simp
  | cons entry rest ih =>
    rw [get?_cons]
    by_cases same : entry.1 = key <;> simp [same, ih]

omit [DecidableEq κ] in
/-- Distinct keys have one value each. -/
theorem value_unique {entries : List (κ × α)} (distinct : (entries.map Prod.fst).Nodup) {key : κ}
    {a b : α} (first : (key, a) ∈ entries) (second : (key, b) ∈ entries) : a = b := by
  induction entries with
  | nil => cases first
  | cons entry rest ih =>
    rw [List.map_cons, List.nodup_cons] at distinct
    have fresh : ∀ value, (entry.1, value) ∉ rest := fun value member =>
      distinct.1 (List.mem_map.mpr ⟨_, member, rfl⟩)
    rcases List.mem_cons.mp first with rfl | below
    · rcases List.mem_cons.mp second with same | below'
      · cases same
        rfl
      · exact absurd below' (fresh b)
    · rcases List.mem_cons.mp second with rfl | below'
      · exact absurd below (fresh a)
      · exact ih distinct.2 below below'

/-- With distinct keys, an entry is the one that is found. -/
theorem get?_of_distinct {entries : List (κ × α)} (distinct : (entries.map Prod.fst).Nodup) {key : κ}
    {value : α} (member : (key, value) ∈ entries) : get? entries key = some value := by
  cases found : get? entries key with
  | none => exact absurd rfl (get?_eq_none_iff.mp found _ member)
  | some other => rw [value_unique distinct (mem_of_get? found) member]

theorem get?_map (f : α → β) (entries : List (κ × α)) (key : κ) :
    get? (entries.map fun entry => (entry.1, f entry.2)) key = (get? entries key).map f := by
  induction entries with
  | nil => rfl
  | cons entry rest ih =>
    rw [List.map_cons, get?_cons, get?_cons, ih]
    split <;> rfl

theorem get?_erase (entries : List (κ × α)) (key other : κ) :
    get? (erase entries key) other = if other = key then none else get? entries other := by
  induction entries with
  | nil => simp [erase]
  | cons entry rest ih =>
    simp only [erase] at ih ⊢
    rw [List.filter_cons, get?_cons]
    grind [get?_cons]

section Ordered

variable [LT κ] [DecidableLT κ]

/-- Rebuild the value at one key from the value already there, if any. -/
def upsert (entries : List (κ × α)) (key : κ) (update : Option α → α) : List (κ × α) :=
  match entries with
  | [] => [(key, update none)]
  | (other, value) :: rest =>
    if key < other then (key, update none) :: (other, value) :: rest
    else if other = key then (key, update (some value)) :: rest
    else (other, value) :: upsert rest key update

def insert (entries : List (κ × α)) (key : κ) (value : α) : List (κ × α) :=
  upsert entries key fun _ => value

/-- Strictly ascending keys: the invariant of an ordered map. -/
def Sorted (entries : List (κ × α)) : Prop :=
  entries.Pairwise fun first second => first.1 < second.1

instance (entries : List (κ × α)) : Decidable (Sorted entries) :=
  inferInstanceAs (Decidable (List.Pairwise _ _))

omit [DecidableEq κ] [DecidableLT κ] in
theorem sorted_nil : Sorted ([] : List (κ × α)) := List.Pairwise.nil

omit [DecidableLT κ] in
theorem Sorted.erase {entries : List (κ × α)} (sorted : Sorted entries) (key : κ) :
    Sorted (SortedMap.erase entries key) :=
  List.Pairwise.filter _ sorted

omit [DecidableEq κ] [DecidableLT κ] in
theorem Sorted.filter {entries : List (κ × α)} (sorted : Sorted entries) (keep : κ × α → Bool) :
    Sorted (entries.filter keep) :=
  List.Pairwise.filter _ sorted

variable [LE κ] [Std.IsLinearOrder κ] [Std.LawfulOrderLT κ]

/-- A key above all others is added at the end. -/
theorem upsert_above {entries : List (κ × α)} {key : κ} (above : ∀ entry ∈ entries, entry.1 < key)
    (update : Option α → α) : upsert entries key update = entries ++ [(key, update none)] := by
  induction entries with
  | nil => rfl
  | cons entry rest ih =>
    have here := above entry List.mem_cons_self
    have later := ih fun other member => above other (List.mem_cons_of_mem _ member)
    have notBelow : ¬ key < entry.1 := by grind
    have differs : entry.1 ≠ key := by grind
    rw [upsert, if_neg notBelow, if_neg differs, later, List.cons_append]

/-- The last key is updated in place. -/
theorem upsert_last {entries : List (κ × α)} {key : κ} (above : ∀ entry ∈ entries, entry.1 < key)
    (held : α) (update : Option α → α) :
    upsert (entries ++ [(key, held)]) key update = entries ++ [(key, update (some held))] := by
  induction entries with
  | nil =>
    have irreflexive : ¬ key < key := by grind
    simp [upsert, irreflexive]
  | cons entry rest ih =>
    have here := above entry List.mem_cons_self
    have later := ih fun other member => above other (List.mem_cons_of_mem _ member)
    have notBelow : ¬ key < entry.1 := by grind
    have differs : entry.1 ≠ key := by grind
    rw [List.cons_append, upsert, if_neg notBelow, if_neg differs, later, List.cons_append]

omit [LE κ] [Std.IsLinearOrder κ] [Std.LawfulOrderLT κ] in
theorem mem_upsert_key {entries : List (κ × α)} {key : κ} {update : Option α → α}
    {entry : κ × α} (member : entry ∈ upsert entries key update) :
    entry.1 = key ∨ entry ∈ entries := by
  induction entries with
  | nil =>
    simp only [upsert, List.mem_singleton] at member
    exact .inl (by rw [member])
  | cons head rest ih =>
    obtain ⟨other, value⟩ := head
    simp only [upsert] at member
    split at member
    · grind
    · split at member <;> grind

theorem Sorted.upsert {entries : List (κ × α)} (sorted : Sorted entries) (key : κ)
    (update : Option α → α) : Sorted (SortedMap.upsert entries key update) := by
  induction entries with
  | nil => exact List.pairwise_singleton _ _
  | cons head rest ih =>
    obtain ⟨other, value⟩ := head
    obtain ⟨above, tail⟩ := List.pairwise_cons.mp sorted
    simp only [SortedMap.upsert]
    split
    · rename_i before
      refine List.pairwise_cons.mpr ⟨?_, sorted⟩
      intro entry member
      rcases List.mem_cons.mp member with same | later
      · simpa [same] using before
      · have := above entry later
        grind
    · split
      · rename_i same
        subst same
        exact List.pairwise_cons.mpr ⟨above, tail⟩
      · rename_i notBefore different
        refine List.pairwise_cons.mpr ⟨?_, ih tail⟩
        intro entry member
        rcases mem_upsert_key member with same | old
        · show other < entry.1
          rw [same]
          grind
        · exact above entry old

theorem Sorted.insert {entries : List (κ × α)} (sorted : Sorted entries) (key : κ) (value : α) :
    Sorted (SortedMap.insert entries key value) :=
  sorted.upsert key _

omit [DecidableLT κ] in
/-- In a sorted list a key below the head is absent. -/
theorem Sorted.get?_of_lt {entries : List (κ × α)} {entry : κ × α} {key : κ}
    (sorted : Sorted (entry :: entries)) (below : key < entry.1) :
    get? (entry :: entries) key = none := by
  apply get?_eq_none_iff.mpr
  intro candidate member same
  rcases List.mem_cons.mp member with head | tail
  · subst head
    grind
  · have above := (List.pairwise_cons.mp sorted).1 candidate tail
    grind

theorem get?_upsert {entries : List (κ × α)} (sorted : Sorted entries) (key other : κ)
    (update : Option α → α) :
    get? (upsert entries key update) other =
      if other = key then some (update (get? entries key)) else get? entries other := by
  induction entries with
  | nil => grind [upsert, get?_cons, get?_nil]
  | cons head rest ih =>
    obtain ⟨stored, value⟩ := head
    have tail := (List.pairwise_cons.mp sorted).2
    simp only [upsert]
    split
    · rename_i before
      have missing := sorted.get?_of_lt before
      rw [get?_cons, missing]
      grind
    · split
      · grind [get?_cons]
      · rw [get?_cons, ih tail, get?_cons, get?_cons]
        grind

/-- What is inserted is found, sorted or not. -/
theorem get?_insert_self (entries : List (κ × α)) (key : κ) (value : α) :
    get? (insert entries key value) key = some value := by
  induction entries with
  | nil => simp [insert, upsert, get?_cons]
  | cons head rest ih =>
    obtain ⟨stored, held⟩ := head
    rw [insert] at ih ⊢
    rw [upsert]
    split
    · simp [get?_cons]
    · split
      · simp [get?_cons]
      · rename_i other
        rw [get?_cons, if_neg other, ih]

theorem get?_insert {entries : List (κ × α)} (sorted : Sorted entries) (key other : κ)
    (value : α) :
    get? (insert entries key value) other =
      if other = key then some value else get? entries other :=
  get?_upsert sorted key other _

omit [DecidableLT κ] in
theorem get?_of_mem {entries : List (κ × α)} (sorted : Sorted entries) {key : κ} {value : α}
    (member : (key, value) ∈ entries) : get? entries key = some value := by
  induction entries with
  | nil => cases member
  | cons head rest ih =>
    obtain ⟨above, tail⟩ := List.pairwise_cons.mp sorted
    rw [get?_cons]
    rcases List.mem_cons.mp member with same | later
    · simp [← same]
    · have below := above _ later
      rw [if_neg (by grind), ih tail later]

omit [LE κ] [Std.IsLinearOrder κ] [Std.LawfulOrderLT κ] in
/-- A new key adds an entry. -/
theorem insert_perm {entries : List (κ × α)} {key : κ} (value : α)
    (new : ∀ entry ∈ entries, entry.1 ≠ key) :
    (insert entries key value).Perm ((key, value) :: entries) := by
  unfold insert
  induction entries with
  | nil => exact .refl _
  | cons head rest ih =>
    obtain ⟨other, held⟩ := head
    simp only [upsert, if_neg (new (other, held) List.mem_cons_self)]
    split
    · exact .refl _
    · exact ((ih fun entry member => new entry (List.mem_cons_of_mem _ member)).cons _).trans
        (.swap ..)

omit [LE κ] [Std.IsLinearOrder κ] [Std.LawfulOrderLT κ] in
/-- Distinct new keys add their entries. -/
theorem foldl_insert_perm {added entries : List (κ × α)}
    (distinct : ((added ++ entries).map Prod.fst).Nodup) :
    (added.foldl (fun map entry => insert map entry.1 entry.2) entries).Perm (added ++ entries) := by
  induction added generalizing entries with
  | nil => exact .refl _
  | cons head rest ih =>
    rw [List.foldl_cons]
    have new : ∀ entry ∈ entries, entry.1 ≠ head.1 := by
      intro entry member same
      rw [List.cons_append, List.map_cons, List.nodup_cons] at distinct
      exact distinct.1 (List.mem_map.mpr ⟨entry, List.mem_append_right _ member, same⟩)
    have moved : (rest ++ insert entries head.1 head.2).Perm (head :: rest ++ entries) :=
      ((insert_perm head.2 new).append_left rest).trans List.perm_middle
    exact (ih ((moved.map _).nodup_iff.mpr distinct)).trans moved

theorem foldl_insert_sorted {added entries : List (κ × α)} (sorted : Sorted entries) :
    Sorted (added.foldl (fun map entry => insert map entry.1 entry.2) entries) := by
  induction added generalizing entries with
  | nil => exact sorted
  | cons head rest ih => exact ih (sorted.insert head.1 head.2)

/-- What is inserted entry by entry is found before what was there. -/
theorem get?_foldl_insert {added entries : List (κ × α)} (sortedAdded : Sorted added)
    (sorted : Sorted entries) (key : κ) :
    get? (added.foldl (fun map entry => insert map entry.1 entry.2) entries) key =
      (get? added key).or (get? entries key) := by
  induction added generalizing entries with
  | nil => rfl
  | cons head rest ih =>
    obtain ⟨above, tail⟩ := List.pairwise_cons.mp sortedAdded
    rw [List.foldl_cons, ih tail (sorted.insert head.1 head.2), get?_insert sorted, get?_cons]
    by_cases same : head.1 = key
    · have absent : get? rest key = none := by
        apply get?_eq_none_iff.mpr
        intro entry member
        have below := above entry member
        grind
      rw [if_pos same, if_pos same.symm, absent]
      rfl
    · rw [if_neg same, if_neg (Ne.symm same)]

/-- A fold that inserts entries of one kind, or leaves the map alone. -/
theorem foldlM_inserts {ε : Type u} {ι : Type (max u v)} (Origin : κ → α → Prop) {items : List ι}
    {step : List (κ × α) → ι → Outcome ε (List (κ × α))} {start final : List (κ × α)}
    (each : ∀ out, ∀ item ∈ items, ∀ next, step out item = .ok next →
      next = out ∨ ∃ key value, Origin key value ∧ next = insert out key value)
    (sorted : Sorted start) (origin : ∀ entry ∈ start, Origin entry.1 entry.2)
    (folded : items.foldlM step start = .ok final) :
    Sorted final ∧ ∀ entry ∈ final, Origin entry.1 entry.2 := by
  induction items generalizing start with
  | nil =>
    cases folded
    exact ⟨sorted, origin⟩
  | cons item rest ih =>
    rw [List.foldlM_cons, Outcome.bind_eq_ok] at folded
    obtain ⟨next, moved, folded⟩ := folded
    have later := fun out item member => each out item (List.mem_cons_of_mem _ member)
    rcases each start item List.mem_cons_self next moved with rfl | ⟨key, value, kind, rfl⟩
    · exact ih later sorted origin folded
    · refine ih later (sorted.insert key value) ?_ folded
      rintro ⟨other, held⟩ member
      have found := get?_of_mem (sorted.insert key value) member
      rw [get?_insert sorted] at found
      split at found
      · rename_i same
        cases found
        subst same
        exact kind
      · exact origin _ (mem_of_get? found)

omit [DecidableEq κ] [DecidableLT κ] in
theorem Sorted.nodup {entries : List (κ × α)} (sorted : Sorted entries) :
    (entries.map Prod.fst).Nodup :=
  List.pairwise_map.mpr (sorted.imp fun below same => by grind)

omit [DecidableLT κ] in
theorem get?_eq_some_iff {entries : List (κ × α)} (sorted : Sorted entries) {key : κ} {value : α} :
    get? entries key = some value ↔ (key, value) ∈ entries :=
  ⟨mem_of_get?, get?_of_mem sorted⟩

omit [DecidableLT κ] in
/-- A sorted list is determined by its lookups. -/
theorem ext_get? {first second : List (κ × α)} (sorted₁ : Sorted first) (sorted₂ : Sorted second)
    (same : ∀ key, get? first key = get? second key) : first = second := by
  induction first generalizing second with
  | nil =>
    cases second with
    | nil => rfl
    | cons head rest =>
      have absent := same head.1
      simp [get?_cons] at absent
  | cons head rest ih =>
    cases second with
    | nil =>
      have absent := same head.1
      simp [get?_cons] at absent
    | cons head' rest' =>
      have sameKey : head.1 = head'.1 := by
        have here := same head.1
        have there := same head'.1
        rw [get?_cons, if_pos rfl] at here
        rw [get?_cons head', if_pos rfl] at there
        have notBelow : ¬ head.1 < head'.1 := by
          intro below
          rw [sorted₂.get?_of_lt below] at here
          cases here
        have notAbove : ¬ head'.1 < head.1 := by
          intro above
          rw [sorted₁.get?_of_lt above] at there
          cases there
        grind
      have sameValue : head.2 = head'.2 := by
        have here := same head.1
        simpa [get?_cons, sameKey] using here
      have sameHead : head = head' := Prod.ext sameKey sameValue
      subst sameHead
      obtain ⟨above₁, tail₁⟩ := List.pairwise_cons.mp sorted₁
      obtain ⟨above₂, tail₂⟩ := List.pairwise_cons.mp sorted₂
      congr 1
      apply ih tail₁ tail₂
      intro key
      by_cases here : head.1 = key
      · have absent (entries : List (κ × α)) (above : ∀ entry ∈ entries, head.1 < entry.1) :
            get? entries key = none := by
          apply get?_eq_none_iff.mpr
          intro entry member
          have := above entry member
          grind
        rw [absent rest above₁, absent rest' above₂]
      · simpa [get?_cons, here] using same key

/-- A sorted list is the map that its entries make. -/
theorem Sorted.foldl_insert {entries : List (κ × α)} (sorted : Sorted entries) :
    entries.foldl (fun map entry => SortedMap.insert map entry.1 entry.2) [] = entries := by
  have again : Sorted (entries.foldl (fun map entry => SortedMap.insert map entry.1 entry.2) []) :=
    foldl_insert_sorted sorted_nil
  have same := foldl_insert_perm (show ((entries ++ []).map Prod.fst).Nodup by
    rw [List.append_nil]
    exact sorted.nodup)
  rw [List.append_nil] at same
  refine ext_get? again sorted fun key => Option.ext fun value => ?_
  rw [get?_eq_some_iff again, get?_eq_some_iff sorted, same.mem_iff]

end Ordered

end TptProto.Foundation.SortedMap

/-! Maps given as pairs one after another, where a later pair of a key replaces an
earlier one. -/

namespace TptProto.Foundation

universe u v

variable {κ : Type u} {α : Type v}

/-- The last pair of the key gives it this value. -/
def LastGiven (pairs : List (κ × α)) (key : κ) (value : α) : Prop :=
  ∃ before after, pairs = before ++ (key, value) :: after ∧ ∀ pair ∈ after, pair.1 ≠ key

/-- One entry for every key given, with the value it was given last. -/
structure Latest (entries pairs : List (κ × α)) : Prop where
  distinct : (entries.map Prod.fst).Nodup
  given : ∀ key value, (key, value) ∈ entries ↔ LastGiven pairs key value

theorem LastGiven.mem {pairs : List (κ × α)} {key : κ} {value : α}
    (given : LastGiven pairs key value) : (key, value) ∈ pairs := by
  obtain ⟨before, after, rfl, _⟩ := given
  simp

theorem exists_lastGiven {pairs : List (κ × α)} {key : κ} {value : α}
    (member : (key, value) ∈ pairs) : ∃ last, LastGiven pairs key last := by
  induction pairs generalizing value with
  | nil => cases member
  | cons pair rest ih =>
    by_cases later : ∃ value', (key, value') ∈ rest
    · obtain ⟨value', inside⟩ := later
      obtain ⟨last, before, after, rfl, absent⟩ := ih inside
      exact ⟨last, pair :: before, after, rfl, absent⟩
    · rcases List.mem_cons.mp member with rfl | there
      · refine ⟨value, [], rest, rfl, fun other inside same => later ⟨other.2, ?_⟩⟩
        rw [← same]
        exact inside
      · exact (later ⟨value, there⟩).elim

theorem lastGiven_append_iff {pairs : List (κ × α)} {pair : κ × α} {key : κ} {value : α} :
    LastGiven (pairs ++ [pair]) key value ↔
      pair = (key, value) ∨ pair.1 ≠ key ∧ LastGiven pairs key value := by
  constructor
  · rintro ⟨before, after, same, none⟩
    rcases List.eq_nil_or_concat after with rfl | ⟨earlier, last, rfl⟩
    · exact .inl (List.append_inj_right' same rfl |> List.singleton_inj.mp)
    · rw [List.concat_eq_append] at same none
      rw [← List.cons_append, ← List.append_assoc] at same
      obtain ⟨rfl, lastSame⟩ := List.append_inj' same rfl
      obtain rfl := List.singleton_inj.mp lastSame
      exact .inr ⟨none pair (by simp), before, earlier, rfl,
        fun other member => none other (by simp [member])⟩
  · rintro (rfl | ⟨other, before, after, rfl, none⟩)
    · exact ⟨pairs, [], rfl, by simp⟩
    · refine ⟨before, after ++ [pair], by simp, fun given member => ?_⟩
      rcases List.mem_append.mp member with inside | last
      · exact none given inside
      · rw [List.mem_singleton.mp last]
        exact other

/-- Adding a pair: its key has its value, and every other key what it had. -/
theorem Latest.add {entries entries' pairs : List (κ × α)} {pair : κ × α} (latest : Latest entries pairs)
    (distinct : (entries'.map Prod.fst).Nodup)
    (added : ∀ key value, (key, value) ∈ entries' ↔
      pair = (key, value) ∨ pair.1 ≠ key ∧ (key, value) ∈ entries) :
    Latest entries' (pairs ++ [pair]) where
  distinct := distinct
  given key value := by rw [added, lastGiven_append_iff, latest.given]

/-- Pairs inserted one after another into an ordered map. -/
theorem Latest.foldl_insert [LT κ] [DecidableLT κ] [DecidableEq κ] [LE κ] [Std.IsLinearOrder κ]
    [Std.LawfulOrderLT κ] {entries done : List (κ × α)} (pairs : List (κ × α))
    (sorted : SortedMap.Sorted entries) (latest : Latest entries done) :
    Latest (pairs.foldl (fun entries pair => SortedMap.insert entries pair.1 pair.2) entries)
      (done ++ pairs) := by
  induction pairs generalizing entries done with
  | nil => rwa [List.append_nil]
  | cons pair rest ih =>
    have inserted := sorted.insert pair.1 pair.2
    have added : Latest (SortedMap.insert entries pair.1 pair.2) (done ++ [pair]) := by
      refine latest.add inserted.nodup fun key value => ?_
      rw [← SortedMap.get?_eq_some_iff inserted, ← SortedMap.get?_eq_some_iff sorted,
        SortedMap.get?_insert sorted]
      grind
    have later := ih inserted added
    rwa [List.append_assoc] at later

theorem latest_nil : Latest ([] : List (κ × α)) [] :=
  ⟨List.nodup_nil, fun key value => by simp [LastGiven]⟩

theorem lastGiven_of_distinct {pairs : List (κ × α)} (distinct : (pairs.map Prod.fst).Nodup) {key : κ}
    {value : α} (member : (key, value) ∈ pairs) : LastGiven pairs key value := by
  obtain ⟨before, after, rfl⟩ := List.append_of_mem member
  refine ⟨before, after, rfl, fun pair inside same => ?_⟩
  rw [List.map_append, List.map_cons, List.nodup_append] at distinct
  exact (List.nodup_cons.mp distinct.2.1).1 (List.mem_map.mpr ⟨pair, inside, same⟩)

/-- Pairs are the map they give exactly if no key is given twice. -/
theorem latest_self_iff {pairs : List (κ × α)} :
    Latest pairs pairs ↔ (pairs.map Prod.fst).Nodup :=
  ⟨Latest.distinct, fun distinct => ⟨distinct, fun _ _ =>
    ⟨lastGiven_of_distinct distinct, LastGiven.mem⟩⟩⟩

end TptProto.Foundation
