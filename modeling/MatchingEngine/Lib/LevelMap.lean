import MatchingEngine.Lib.OrderedMap
import Mathlib.Data.List.Flatten

/-!
# Levels of queues

A `LevelMap` is an ordered map whose values are first-in-first-out queues: the
levels of a priority structure, best level first.  Read level by level and front
to back it is one list, `flat`, each element tagged with the key of its level,
and this list is what the structure is for: elements leave from its head.

* `insertAfter`: stable insertion into an ordered list, behind everything that is
  not strictly worse.
* `flat_pushBack`: appending to a level is stable insertion into `flat`.
* `flat_setLevel`: rewriting one level (and dropping it when it becomes empty)
  rewrites the corresponding stretch of `flat`, and nothing else.
* `queue`: what stands at one key, with what each update does to it.
-/

namespace MatchingEngine

variable {K α β : Type*}

/-! ## Stable insertion -/

section InsertAfter

variable (r : K → K → Prop) [DecidableRel r] (key : α → K)

/-- Insert behind everything that is not strictly worse. -/
def insertAfter (x : α) (l : List α) : List α :=
  l.filter (fun y => !decide (r (key x) (key y))) ++
    x :: l.filter (fun y => decide (r (key x) (key y)))

/-- The list is in the order of its keys; equal keys may repeat. -/
def KeyOrdered (l : List α) : Prop := l.Pairwise fun a b => ¬ r (key b) (key a)

variable {r key}

@[simp] theorem mem_insertAfter {x y : α} {l : List α} :
    y ∈ insertAfter r key x l ↔ y = x ∨ y ∈ l := by
  rw [insertAfter, List.mem_append, List.mem_cons, List.mem_filter, List.mem_filter]
  by_cases h : r (key x) (key y) <;> simp [h, or_comm]

theorem insertAfter_perm (x : α) (l : List α) : (insertAfter r key x l).Perm (x :: l) := by
  refine List.perm_middle.trans (List.Perm.cons x ?_)
  exact List.perm_append_comm.trans (List.filter_append_perm _ l)

/-- **Insertion into a queue.**  A relation that holds along the list between elements
of one key goes on to do so, when it holds between the elements of the key of `x` and
`x`. -/
theorem pairwise_insertAfter [Std.Irrefl r] {R : α → α → Prop} {x : α} {l : List α}
    (hl : l.Pairwise fun a b => key a = key b → R a b)
    (hx : ∀ a ∈ l, key a = key x → R a x) :
    (insertAfter r key x l).Pairwise fun a b => key a = key b → R a b := by
  rw [insertAfter, List.pairwise_append, List.pairwise_cons]
  refine ⟨hl.sublist List.filter_sublist, ⟨fun b hb hk => ?_, hl.sublist List.filter_sublist⟩,
    fun a ha b hb hk => ?_⟩
  · -- what stands behind `x` has another key
    have hr := (List.mem_filter.mp hb).2
    rw [decide_eq_true_eq, ← hk] at hr
    exact absurd hr (irrefl _)
  · obtain ⟨hal, hra⟩ := List.mem_filter.mp ha
    rcases List.mem_cons.mp hb with rfl | hb
    · exact hx a hal hk
    · have hr := (List.mem_filter.mp hb).2
      rw [decide_eq_true_eq, ← hk] at hr
      simp [hr] at hra

omit [DecidableRel r] in
theorem KeyOrdered.sublist {l l' : List α} (h : KeyOrdered r key l) (hl : l'.Sublist l) :
    KeyOrdered r key l' :=
  List.Pairwise.sublist hl h

section Order

variable [IsStrictTotalOrder K r] {l : List α}

/-- In an ordered list what is strictly worse than a key comes last. -/
theorem KeyOrdered.filter_append_filter (h : KeyOrdered r key l) (k : K) :
    l.filter (fun y => !decide (r k (key y))) ++ l.filter (fun y => decide (r k (key y))) = l := by
  induction l with
  | nil => rfl
  | cons y l ih =>
    obtain ⟨hy, hl⟩ := List.pairwise_cons.mp h
    by_cases hk : r k (key y)
    · have hall : ∀ z ∈ l, r k (key z) := by
        intro z hz
        rcases trichotomous_of r (key y) (key z) with hlt | heq | hgt
        · exact trans_of r hk hlt
        · exact heq ▸ hk
        · exact absurd hgt (hy z hz)
      rw [List.filter_cons_of_neg (by simp [hk]), List.filter_cons_of_pos (by simp [hk]),
        List.filter_eq_nil_iff.mpr fun z hz => by simp [hall z hz],
        List.filter_eq_self.mpr fun z hz => by simp [hall z hz], List.nil_append]
    · rw [List.filter_cons_of_pos (by simp [hk]), List.filter_cons_of_neg (by simp [hk]),
        List.cons_append, ih hl]

/-- **Insertion moves nothing else.** -/
theorem KeyOrdered.filter_insertAfter (h : KeyOrdered r key l) {x : α} {p : α → Bool}
    (hx : p x = false) : (insertAfter r key x l).filter p = l.filter p := by
  rw [insertAfter, List.filter_append, List.filter_cons_of_neg (by simp [hx]),
    ← List.filter_append, h.filter_append_filter]

end Order

end InsertAfter

/-! ## Levels -/

/-- A map from keys to queues. -/
abbrev LevelMap (r : K → K → Prop) (α : Type*) := OrderedMap r (List α)

namespace LevelMap

variable {r : K → K → Prop}

/-- The elements, best level first, each level front to back, tagged with the key
of their level. -/
def flat (m : LevelMap r α) : List (K × α) :=
  m.entries.flatMap fun e => e.2.map fun x => (e.1, x)

/-- No level is empty. -/
def NonemptyLevels (m : LevelMap r α) : Prop := ∀ e ∈ m.entries, e.2 ≠ []

/-- Reading a list of levels. -/
def flatEntries (l : List (K × List α)) : List (K × α) :=
  l.flatMap fun e => e.2.map fun x => (e.1, x)

theorem flat_eq (m : LevelMap r α) : m.flat = flatEntries m.entries := rfl

@[simp] theorem flatEntries_nil : flatEntries ([] : List (K × List α)) = [] := rfl

@[simp] theorem flatEntries_cons (k : K) (q : List α) (l : List (K × List α)) :
    flatEntries ((k, q) :: l) = (q.map fun x => (k, x)) ++ flatEntries l := rfl

@[simp] theorem flatEntries_append (l l' : List (K × List α)) :
    flatEntries (l ++ l') = flatEntries l ++ flatEntries l' :=
  List.flatMap_append

@[simp] theorem flat_empty : flat (OrderedMap.empty : LevelMap r α) = [] := rfl

theorem nonemptyLevels_empty : NonemptyLevels (OrderedMap.empty : LevelMap r α) :=
  fun _ h => absurd h List.not_mem_nil

theorem mem_flatEntries {l : List (K × List α)} {k : K} {x : α} :
    (k, x) ∈ flatEntries l ↔ ∃ q, (k, q) ∈ l ∧ x ∈ q := by
  rw [flatEntries, List.mem_flatMap]
  constructor
  · rintro ⟨⟨k', q⟩, hq, hx⟩
    obtain ⟨y, hy, he⟩ := List.mem_map.mp hx
    obtain ⟨rfl, rfl⟩ := Prod.mk.inj he
    exact ⟨q, hq, hy⟩
  · rintro ⟨q, hq, hx⟩
    exact ⟨(k, q), hq, List.mem_map.mpr ⟨x, hx, rfl⟩⟩

theorem mem_flat {m : LevelMap r α} {k : K} {x : α} :
    (k, x) ∈ m.flat ↔ ∃ q, (k, q) ∈ m.entries ∧ x ∈ q := mem_flatEntries

/-- Filtering the levels by their keys filters the reading by its tags. -/
theorem flatEntries_filter (p : K → Bool) (l : List (K × List α)) :
    flatEntries (l.filter fun e => p e.1) = (flatEntries l).filter fun a => p a.1 := by
  induction l with
  | nil => rfl
  | cons e l ih =>
    obtain ⟨k, q⟩ := e
    rw [flatEntries_cons, List.filter_append, ← ih, List.filter_map]
    cases hp : p k with
    | true =>
      have hq : q.filter ((fun a : K × α => p a.1) ∘ fun x => (k, x)) = q :=
        List.filter_eq_self.mpr fun x _ => hp
      rw [List.filter_cons_of_pos (by simpa using hp), flatEntries_cons, hq]
    | false =>
      have hq : q.filter ((fun a : K × α => p a.1) ∘ fun x => (k, x)) = [] :=
        List.filter_eq_nil_iff.mpr fun x _ => by simp [Function.comp, hp]
      rw [List.filter_cons_of_neg (by simpa using hp), hq, List.map_nil, List.nil_append]

theorem keyOrdered_flatEntries {l : List (K × List α)} [IsStrictTotalOrder K r]
    (hl : l.Pairwise fun a b => r a.1 b.1) : KeyOrdered r Prod.fst (flatEntries l) := by
  induction l with
  | nil => exact List.Pairwise.nil
  | cons e l ih =>
    obtain ⟨k, q⟩ := e
    rw [List.pairwise_cons] at hl
    rw [flatEntries_cons, KeyOrdered, List.pairwise_append]
    refine ⟨?_, ih hl.2, fun a ha b hb => ?_⟩
    · rw [List.pairwise_map]
      exact List.pairwise_of_forall fun _ _ => irrefl k
    · obtain ⟨x, -, rfl⟩ := List.mem_map.mp ha
      obtain ⟨q', hq', -⟩ := mem_flatEntries.mp (show (b.1, b.2) ∈ flatEntries l from hb)
      exact asymm (hl.1 (b.1, q') hq')

/-- The reading is in the order of the levels. -/
theorem keyOrdered_flat [IsStrictTotalOrder K r] (m : LevelMap r α) :
    KeyOrdered r Prod.fst m.flat := keyOrdered_flatEntries m.sorted

section Order

variable [IsStrictTotalOrder K r]

/-- Elements of the other levels carry other tags. -/
theorem ne_key_of_split {m : LevelMap r α} {k : K} {q : List α} {pre post : List (K × List α)}
    (h : m.entries = pre ++ (k, q) :: post) :
    (∀ a ∈ flatEntries pre, a.1 ≠ k) ∧ ∀ a ∈ flatEntries post, a.1 ≠ k := by
  have hs := m.sorted
  rw [h] at hs
  constructor
  · intro a ha
    obtain ⟨q', hq', -⟩ := mem_flatEntries.mp (show (a.1, a.2) ∈ flatEntries pre from ha)
    exact OrderedMap.key_ne_of_sorted hs (Or.inl hq')
  · intro a ha
    obtain ⟨q', hq', -⟩ := mem_flatEntries.mp (show (a.1, a.2) ∈ flatEntries post from ha)
    exact OrderedMap.key_ne_of_sorted hs (Or.inr hq')

variable [DecidableEq K] [DecidableRel r]

omit [DecidableRel r] in
/-- A level is a stretch of the reading. -/
theorem level_sublist_flat {m : LevelMap r α} {k : K} {q : List α} (h : m.find? k = some q) :
    (q.map fun x => (k, x)).Sublist m.flat := by
  obtain ⟨pre, post, hsplit⟩ := List.append_of_mem (OrderedMap.find?_eq_some.mp h)
  rw [flat_eq, hsplit, flatEntries_append, flatEntries_cons]
  exact (List.sublist_append_left _ _).trans (List.sublist_append_right _ _)

omit [DecidableRel r] in
/-- A level is what the reading holds under its key. -/
theorem find?_iff_flat {m : LevelMap r α} (hne : m.NonemptyLevels) {k : K} {q : List α} :
    m.find? k = some q ↔
      q ≠ [] ∧ (q.map fun x => (k, x)) = m.flat.filter fun a => decide (a.1 = k) := by
  have hlevel : ∀ q', m.find? k = some q' →
      q' ≠ [] ∧ (q'.map fun x => (k, x)) = m.flat.filter fun a => decide (a.1 = k) := by
    intro q' hq'
    have hmem := OrderedMap.find?_eq_some.mp hq'
    obtain ⟨pre, post, hsplit⟩ := List.append_of_mem hmem
    obtain ⟨hpre, hpost⟩ := ne_key_of_split hsplit
    have hself : (q'.map fun x => (k, x)).filter (fun a => decide (a.1 = k)) =
        q'.map fun x => (k, x) := by
      refine List.filter_eq_self.mpr fun a ha => ?_
      obtain ⟨x, -, rfl⟩ := List.mem_map.mp ha
      simp
    refine ⟨hne _ hmem, ?_⟩
    rw [flat_eq, hsplit, flatEntries_append, flatEntries_cons, List.filter_append,
      List.filter_append, hself,
      List.filter_eq_nil_iff.mpr fun a ha => by simpa using hpre a ha,
      List.filter_eq_nil_iff.mpr fun a ha => by simpa using hpost a ha, List.nil_append,
      List.append_nil]
  constructor
  · exact hlevel q
  · rintro ⟨hq, hflat⟩
    obtain ⟨x, hx⟩ := List.exists_mem_of_ne_nil q hq
    have hmem : (k, x) ∈ m.flat.filter fun a => decide (a.1 = k) := by
      rw [← hflat]
      exact List.mem_map_of_mem hx
    obtain ⟨q', hq', -⟩ := mem_flat.mp (List.mem_filter.mp hmem).1
    have hfind := OrderedMap.find?_eq_some.mpr hq'
    have heq := (hlevel q' hfind).2.trans hflat.symm
    rw [hfind, (List.map_inj_right fun _ _ h => (Prod.mk.inj h).2).mp heq]

/-! ## Appending to a level -/

/-- Append an element to the level of a key, which is created when it is not
there. -/
def pushBack (m : LevelMap r α) (k : K) (x : α) : LevelMap r α :=
  m.insert k ((m.find? k).getD [] ++ [x])

theorem entries_pushBack (m : LevelMap r α) (k : K) (x : α) :
    (m.pushBack k x).entries = m.entries.filter (fun e => decide (r e.1 k)) ++
      (k, (m.find? k).getD [] ++ [x]) :: m.entries.filter (fun e => decide (r k e.1)) := rfl

/-- **Appending to a level is stable insertion.** -/
theorem flat_pushBack (m : LevelMap r α) (k : K) (x : α) :
    (m.pushBack k x).flat = insertAfter r Prod.fst (k, x) m.flat := by
  have hpost : ((m.flat).filter fun a => decide (r k a.1)) =
      flatEntries (m.entries.filter fun e => decide (r k e.1)) :=
    (flatEntries_filter (fun k' => decide (r k k')) m.entries).symm
  have hpre : ((m.flat).filter fun a => !decide (r k a.1)) =
      flatEntries (m.entries.filter fun e => !decide (r k e.1)) :=
    (flatEntries_filter (fun k' => !decide (r k k')) m.entries).symm
  rw [insertAfter, hpost, hpre, flat_eq, entries_pushBack, flatEntries_append, flatEntries_cons,
    List.map_append, List.map_singleton, List.append_assoc, List.singleton_append,
    ← List.append_assoc]
  congr 1
  -- what is not strictly worse than `k` is what is better, then the level itself
  cases hk : m.find? k with
  | none =>
    rw [Option.getD_none, List.map_nil, List.append_nil]
    congr 1
    refine List.filter_congr fun e he => ?_
    have hne : e.1 ≠ k := OrderedMap.find?_eq_none.mp hk e he
    rcases trichotomous_of r e.1 k with hlt | heq | hgt
    · simp [hlt, asymm hlt]
    · exact absurd heq hne
    · simp [hgt, asymm hgt]
  | some q =>
    obtain ⟨pre, post, hsplit⟩ := List.append_of_mem (OrderedMap.find?_eq_some.mp hk)
    obtain ⟨h1, h2⟩ := OrderedMap.entries_split hsplit
    have hs := m.sorted
    rw [hsplit, List.pairwise_append, List.pairwise_cons] at hs
    obtain ⟨-, ⟨hpost', -⟩, hpre'⟩ := hs
    have h3 : m.entries.filter (fun e => !decide (r k e.1)) = pre ++ [(k, q)] := by
      rw [hsplit, List.filter_append, List.filter_cons_of_pos (by simpa using irrefl k),
        List.filter_eq_self.mpr fun e he => by
          simpa using asymm (hpre' e he (k, q) List.mem_cons_self),
        List.filter_eq_nil_iff.mpr fun e he => by simpa using hpost' e he]
    rw [h1, h3, flatEntries_append, flatEntries_cons, flatEntries_nil, List.append_nil,
      Option.getD_some]

theorem nonemptyLevels_pushBack {m : LevelMap r α} (h : m.NonemptyLevels) (k : K) (x : α) :
    (m.pushBack k x).NonemptyLevels := by
  intro e he
  rw [entries_pushBack, List.mem_append, List.mem_cons] at he
  rcases he with he | rfl | he
  · exact h e ((List.mem_filter.mp he).1)
  · exact List.append_ne_nil_of_right_ne_nil _ (List.cons_ne_nil _ _)
  · exact h e ((List.mem_filter.mp he).1)

/-! ## Rewriting a level -/

/-- Store a queue back as the level of a key; an empty queue drops the level. -/
def setLevel (m : LevelMap r α) (k : K) (q : List α) : LevelMap r α :=
  if q.isEmpty then m.erase k else m.insert k q

theorem nonemptyLevels_setLevel {m : LevelMap r α} (h : m.NonemptyLevels) (k : K) (q : List α) :
    (m.setLevel k q).NonemptyLevels := by
  intro e he
  rw [setLevel] at he
  split at he
  · exact h e ((List.mem_filter.mp he).1)
  · rename_i hq
    rw [OrderedMap.entries_insert, List.mem_append, List.mem_cons] at he
    rcases he with he | rfl | he
    · exact h e ((List.mem_filter.mp he).1)
    · exact fun hnil => hq (by rw [List.isEmpty_iff]; exact hnil)
    · exact h e ((List.mem_filter.mp he).1)

/-- Rewriting a level rewrites its entry, or drops it. -/
theorem entries_setLevel {m : LevelMap r α} {k : K} {q : List α} {pre post : List (K × List α)}
    (h : m.entries = pre ++ (k, q) :: post) (q' : List α) :
    (m.setLevel k q').entries = pre ++ ((if q'.isEmpty then [] else [(k, q')]) ++ post) := by
  rw [setLevel]
  split
  · exact OrderedMap.entries_erase_of_split h
  · exact OrderedMap.entries_insert_of_split h

/-- **Rewriting a level rewrites its stretch of the reading.** -/
theorem flat_setLevel {m : LevelMap r α} {k : K} {q : List α} {pre post : List (K × List α)}
    (h : m.entries = pre ++ (k, q) :: post) (q' : List α) :
    (m.setLevel k q').flat =
      flatEntries pre ++ ((q'.map fun x => (k, x)) ++ flatEntries post) := by
  rw [flat_eq, entries_setLevel h, flatEntries_append, flatEntries_append]
  split
  · rename_i hq
    rw [List.isEmpty_iff] at hq
    rw [hq, List.map_nil, flatEntries_nil]
  · rw [flatEntries_cons, flatEntries_nil, List.append_nil]

/-- Filtering one level filters the elements tagged with its key. -/
theorem flat_setLevel_filter {m : LevelMap r α} {k : K} {q : List α}
    (h : m.find? k = some q) (p : α → Bool) :
    (m.setLevel k (q.filter p)).flat =
      m.flat.filter fun a => !decide (a.1 = k) || p a.2 := by
  obtain ⟨pre, post, hsplit⟩ := List.append_of_mem (OrderedMap.find?_eq_some.mp h)
  obtain ⟨hpre, hpost⟩ := ne_key_of_split hsplit
  have hother : ∀ l : List (K × α), (∀ a ∈ l, a.1 ≠ k) →
      l.filter (fun a => !decide (a.1 = k) || p a.2) = l :=
    fun l hl => List.filter_eq_self.mpr fun a ha => by simp [hl a ha]
  have hlevel : q.filter ((fun a : K × α => !decide (a.1 = k) || p a.2) ∘ fun x => (k, x)) =
      q.filter p := List.filter_congr fun x _ => by simp [Function.comp]
  rw [flat_setLevel hsplit, flat_eq, hsplit, flatEntries_append, flatEntries_cons,
    List.filter_append, List.filter_append, hother _ hpre, hother _ hpost, List.filter_map, hlevel]

/-- Rewriting the elements of one level rewrites the elements tagged with its
key. -/
theorem flat_setLevel_map {m : LevelMap r α} {k : K} {q : List α}
    (h : m.find? k = some q) (f : α → α) :
    (m.setLevel k (q.map f)).flat =
      m.flat.map fun a => if a.1 = k then (k, f a.2) else a := by
  obtain ⟨pre, post, hsplit⟩ := List.append_of_mem (OrderedMap.find?_eq_some.mp h)
  obtain ⟨hpre, hpost⟩ := ne_key_of_split hsplit
  have hother : ∀ l : List (K × α), (∀ a ∈ l, a.1 ≠ k) →
      l.map (fun a => if a.1 = k then (k, f a.2) else a) = l := by
    intro l hl
    rw [List.map_congr_left fun a ha => if_neg (hl a ha), List.map_id']
  have hlevel : q.map ((fun a : K × α => if a.1 = k then (k, f a.2) else a) ∘ fun x => (k, x)) =
      q.map ((fun x => (k, x)) ∘ f) := List.map_congr_left fun x _ => if_pos rfl
  rw [flat_setLevel hsplit, flat_eq, hsplit, flatEntries_append, flatEntries_cons,
    List.map_append, List.map_append, hother _ hpre, hother _ hpost, List.map_map, List.map_map,
    hlevel]

/-- Rewriting the first level rewrites an initial stretch. -/
theorem flat_setLevel_begin {m : LevelMap r α} {k : K} {q : List α} (h : m.begin? = some (k, q))
    (q' : List α) :
    ∃ rest, m.flat = (q.map fun x => (k, x)) ++ rest ∧
      (m.setLevel k q').flat = (q'.map fun x => (k, x)) ++ rest := by
  obtain ⟨post, hpost⟩ := OrderedMap.begin?_eq_some.mp h
  refine ⟨flatEntries post, ?_, ?_⟩
  · rw [flat_eq, hpost, flatEntries_cons]
  · have hsplit : m.entries = [] ++ (k, q) :: post := hpost
    rw [flat_setLevel hsplit, flatEntries_nil, List.nil_append]

/-! ## Queues -/

/-- The queue of a level, front to back; empty when there is no such level. -/
def queue (m : LevelMap r α) (k : K) : List α := (m.find? k).getD []

omit [DecidableRel r] in
theorem mem_queue {m : LevelMap r α} {k : K} {x : α} : x ∈ m.queue k ↔ (k, x) ∈ m.flat := by
  rw [mem_flat, queue]
  constructor
  · intro h
    cases hk : m.find? k with
    | none => rw [hk] at h; exact absurd h List.not_mem_nil
    | some q =>
      rw [hk] at h
      exact ⟨q, OrderedMap.find?_eq_some.mp hk, h⟩
  · rintro ⟨q, hq, hx⟩
    rw [OrderedMap.find?_eq_some.mpr hq]
    exact hx

omit [DecidableRel r] in
/-- Without empty levels, a level is missing when its queue is empty. -/
theorem find?_eq_none_iff_queue {m : LevelMap r α} (hne : m.NonemptyLevels) {k : K} :
    m.find? k = none ↔ m.queue k = [] := by
  rw [queue]
  cases hk : m.find? k with
  | none => simp
  | some q =>
    have hq : q ≠ [] := hne (k, q) (OrderedMap.find?_eq_some.mp hk)
    simp [hq]

omit [IsStrictTotalOrder K r] [DecidableRel r] in
theorem find?_eq_some_of_queue {m : LevelMap r α} {k : K} (h : m.queue k ≠ []) :
    m.find? k = some (m.queue k) := by
  rw [queue] at h ⊢
  cases hk : m.find? k with
  | none => rw [hk] at h; exact absurd rfl h
  | some q => rfl

omit [IsStrictTotalOrder K r] [DecidableRel r] in
theorem queue_of_find? {m : LevelMap r α} {k : K} {q : List α} (h : m.find? k = some q) :
    m.queue k = q := by
  rw [queue, h, Option.getD_some]

omit [IsStrictTotalOrder K r] [DecidableRel r] in
theorem queue_of_find?_none {m : LevelMap r α} {k : K} (h : m.find? k = none) :
    m.queue k = [] := by
  rw [queue, h, Option.getD_none]

theorem queue_pushBack (m : LevelMap r α) (k : K) (x : α) (k' : K) :
    (m.pushBack k x).queue k' = if k' = k then m.queue k ++ [x] else m.queue k' := by
  rw [queue, pushBack, OrderedMap.find?_insert]
  split
  · rfl
  · rfl

theorem queue_setLevel (m : LevelMap r α) (k : K) (q : List α) (k' : K) :
    (m.setLevel k q).queue k' = if k' = k then q else m.queue k' := by
  rw [queue, setLevel]
  split
  · rename_i hq
    rw [List.isEmpty_iff] at hq
    rw [OrderedMap.find?_erase, hq]
    split <;> rfl
  · rw [OrderedMap.find?_insert]
    split <;> rfl

/-- **Rewriting a level where there is one** rewrites its queue, and no other. -/
theorem queue_rewrite {m m' : LevelMap r α} {k : K} {f : List α → List α} (hnil : f [] = [])
    (hsome : ∀ q, m.find? k = some q → m' = m.setLevel k (f q))
    (hnone : m.find? k = none → m' = m) (k' : K) :
    m'.queue k' = if k' = k then f (m.queue k') else m.queue k' := by
  cases hfind : m.find? k with
  | none =>
    rw [hnone hfind]
    split
    · rename_i hk
      rw [hk, queue_of_find?_none hfind, hnil]
    · rfl
  | some q =>
    rw [hsome q hfind, queue_setLevel]
    split
    · rename_i hk
      rw [hk, queue_of_find? hfind]
    · rfl

end Order

/-! ## Renaming -/

section Renaming

variable {K' : Type*} {r' : K' → K' → Prop} {f : K → K'} {g : α → β}
variable {m : LevelMap r α} {m' : LevelMap r' β}

theorem flat_renames (h : OrderedMap.Renames f (List.map g) m m') :
    m'.flat = m.flat.map (Prod.map f g) := by
  rw [flat, flat, h, List.flatMap_map, List.map_flatMap]
  simp only [Prod.map_fst, Prod.map_snd, List.map_map]
  rfl

variable [IsStrictTotalOrder K r] [IsStrictTotalOrder K' r'] [DecidableRel r] [DecidableRel r']
variable [DecidableEq K] [DecidableEq K']

theorem renames_pushBack (h : OrderedMap.Renames f (List.map g) m m')
    (hf : ∀ a b, r' (f a) (f b) ↔ r a b) (hinj : Function.Injective f) (k : K) (x : α) :
    OrderedMap.Renames f (List.map g) (m.pushBack k x) (m'.pushBack (f k) (g x)) := by
  rw [pushBack, pushBack, h.find?_eq hinj]
  have hqueue : ((m.find? k).map (List.map g)).getD [] ++ [g x] =
      ((m.find? k).getD [] ++ [x]).map g := by
    cases m.find? k <;> simp
  rw [hqueue]
  exact h.insert hf k _

theorem renames_setLevel (h : OrderedMap.Renames f (List.map g) m m')
    (hf : ∀ a b, r' (f a) (f b) ↔ r a b) (hinj : Function.Injective f) (k : K) (q : List α) :
    OrderedMap.Renames f (List.map g) (m.setLevel k q) (m'.setLevel (f k) (q.map g)) := by
  rw [setLevel, setLevel, List.isEmpty_map]
  split
  · exact h.erase hinj k
  · exact h.insert hf k q

end Renaming

end LevelMap
end MatchingEngine
