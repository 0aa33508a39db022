import Mathlib.Data.List.Pairwise
import Mathlib.Order.RelClasses

/-!
# Ordered maps with a comparator

A map from keys to values kept as the list of its entries in the order of a
comparator `r`, a strict total order on the keys.  The order of the entries is a
field of the structure, so the first entry is the best one by construction and no
client ever proves its map sorted.

The two updates are written with filters rather than by recursion: everything
before the key, the key, everything after it.  The one lemma about positions is
`entries_split`: an entry cuts the list into exactly these two parts.

`Renames` relates two maps that differ by a renaming of keys and values.  A renaming
that respects the comparators commutes with every operation.
-/

namespace MatchingEngine

variable {K V : Type*}

/-- A map whose entries are listed in the order of the comparator `r`. -/
structure OrderedMap (r : K → K → Prop) (V : Type*) where
  /-- The entries, best key first. -/
  entries : List (K × V)
  /-- The keys are listed strictly in order. -/
  sorted : entries.Pairwise fun a b => r a.1 b.1

namespace OrderedMap

variable {r : K → K → Prop}

theorem ext_entries {m m' : OrderedMap r V} (h : m.entries = m'.entries) : m = m' := by
  cases m
  cases m'
  congr

instance [DecidableEq K] [DecidableEq V] : DecidableEq (OrderedMap r V) := fun m m' =>
  decidable_of_iff (m.entries = m'.entries) ⟨ext_entries, fun h => congrArg entries h⟩

/-- The map without entries. -/
def empty : OrderedMap r V := ⟨[], List.Pairwise.nil⟩

instance : Inhabited (OrderedMap r V) := ⟨empty⟩

@[simp] theorem entries_empty : (empty : OrderedMap r V).entries = [] := rfl

/-- The entry with the best key. -/
def begin? (m : OrderedMap r V) : Option (K × V) := m.entries.head?

theorem begin?_eq_some {m : OrderedMap r V} {e : K × V} :
    m.begin? = some e ↔ ∃ rest, m.entries = e :: rest := by
  rw [begin?]
  cases h : m.entries with
  | nil => simp
  | cons a l => simp

section Order

variable [IsStrictTotalOrder K r]

theorem key_ne_of_sorted {a b : K × V} {l₁ l₂ : List (K × V)}
    (h : (l₁ ++ b :: l₂).Pairwise fun a b => r a.1 b.1) (ha : a ∈ l₁ ∨ a ∈ l₂) : a.1 ≠ b.1 := by
  rw [List.pairwise_append, List.pairwise_cons] at h
  obtain ⟨-, ⟨hb, -⟩, hcross⟩ := h
  intro hab
  rcases ha with ha | ha
  · exact irrefl b.1 (hab ▸ hcross a ha b List.mem_cons_self)
  · exact irrefl b.1 (hab ▸ hb a ha)

variable [DecidableRel r]

/-- **An entry cuts the list at its key**: before it the smaller keys, after it
the larger ones. -/
theorem entries_split {m : OrderedMap r V} {k : K} {v : V} {pre post : List (K × V)}
    (h : m.entries = pre ++ (k, v) :: post) :
    m.entries.filter (fun e => decide (r e.1 k)) = pre ∧
      m.entries.filter (fun e => decide (r k e.1)) = post := by
  have hs := m.sorted
  rw [h, List.pairwise_append, List.pairwise_cons] at hs
  obtain ⟨-, ⟨hpost, -⟩, hpre⟩ := hs
  have hpre' : ∀ e ∈ pre, r e.1 k := fun e he => hpre e he (k, v) List.mem_cons_self
  have hk : ¬ r k k := irrefl k
  rw [h, List.filter_append, List.filter_append,
    List.filter_cons_of_neg (by simpa using hk), List.filter_cons_of_neg (by simpa using hk)]
  constructor
  · rw [List.filter_eq_self.mpr fun e he => by simpa using hpre' e he,
      List.filter_eq_nil_iff.mpr fun e he => by simpa using asymm (hpost e he), List.append_nil]
  · rw [List.filter_eq_nil_iff.mpr fun e he => by simpa using asymm (hpre' e he),
      List.filter_eq_self.mpr fun e he => by simpa using hpost e he, List.nil_append]

/-- Store a value under a key, replacing the value that was there. -/
def insert (m : OrderedMap r V) (k : K) (v : V) : OrderedMap r V where
  entries := m.entries.filter (fun e => decide (r e.1 k)) ++
    (k, v) :: m.entries.filter (fun e => decide (r k e.1))
  sorted := by
    rw [List.pairwise_append, List.pairwise_cons]
    refine ⟨m.sorted.filter _, ⟨fun a ha => ?_, m.sorted.filter _⟩, fun a ha b hb => ?_⟩
    · exact of_decide_eq_true (List.mem_filter.mp ha).2
    · have hak : r a.1 k := of_decide_eq_true (List.mem_filter.mp ha).2
      rcases List.mem_cons.mp hb with rfl | hb
      · exact hak
      · exact trans_of r hak (of_decide_eq_true (List.mem_filter.mp hb).2)

theorem entries_insert (m : OrderedMap r V) (k : K) (v : V) :
    (m.insert k v).entries = m.entries.filter (fun e => decide (r e.1 k)) ++
      (k, v) :: m.entries.filter (fun e => decide (r k e.1)) := rfl

theorem entries_insert_of_split {m : OrderedMap r V} {k : K} {v v' : V}
    {pre post : List (K × V)} (h : m.entries = pre ++ (k, v) :: post) :
    (m.insert k v').entries = pre ++ (k, v') :: post := by
  obtain ⟨hpre, hpost⟩ := entries_split h
  rw [entries_insert, hpre, hpost]

end Order

section Keys

variable [DecidableEq K]

/-- The value stored under a key. -/
def find? (m : OrderedMap r V) (k : K) : Option V :=
  (m.entries.find? fun e => decide (e.1 = k)).map Prod.snd

/-- Remove the entry of a key. -/
def erase (m : OrderedMap r V) (k : K) : OrderedMap r V where
  entries := m.entries.filter fun e => decide (e.1 ≠ k)
  sorted := m.sorted.filter _

theorem entries_erase (m : OrderedMap r V) (k : K) :
    (m.erase k).entries = m.entries.filter fun e => decide (e.1 ≠ k) := rfl

theorem find?_eq_none {m : OrderedMap r V} {k : K} :
    m.find? k = none ↔ ∀ e ∈ m.entries, e.1 ≠ k := by
  rw [find?, Option.map_eq_none_iff, List.find?_eq_none]
  simp only [decide_eq_true_eq, ne_eq]

variable [IsStrictTotalOrder K r]

theorem find?_eq_some {m : OrderedMap r V} {k : K} {v : V} :
    m.find? k = some v ↔ (k, v) ∈ m.entries := by
  constructor
  · intro h
    obtain ⟨e, he, hv⟩ := Option.map_eq_some_iff.mp h
    have hk : e.1 = k := by simpa using List.find?_some he
    have hmem := List.mem_of_find?_eq_some he
    rwa [← hk, ← hv]
  · intro h
    obtain ⟨pre, post, hsplit⟩ := List.append_of_mem h
    have hsorted := m.sorted
    rw [hsplit] at hsorted
    have hnone : pre.find? (fun e => decide (e.1 = k)) = none := by
      rw [List.find?_eq_none]
      intro a ha
      simpa using key_ne_of_sorted hsorted (Or.inl ha)
    rw [find?, hsplit, List.find?_append, hnone, Option.none_or,
      List.find?_cons_of_pos (by simp), Option.map_some]

theorem entries_erase_of_split {m : OrderedMap r V} {k : K} {v : V}
    {pre post : List (K × V)} (h : m.entries = pre ++ (k, v) :: post) :
    (m.erase k).entries = pre ++ post := by
  have hs := m.sorted
  rw [h] at hs
  have hne : ∀ e, e ∈ pre ∨ e ∈ post → e.1 ≠ k := fun e he => key_ne_of_sorted hs he
  rw [entries_erase, h, List.filter_append, List.filter_cons_of_neg (by simp),
    List.filter_eq_self.mpr fun e he => by simpa using hne e (Or.inl he),
    List.filter_eq_self.mpr fun e he => by simpa using hne e (Or.inr he)]

theorem find?_erase (m : OrderedMap r V) (k k' : K) :
    (m.erase k).find? k' = if k' = k then none else m.find? k' := by
  refine Option.ext fun v => ?_
  rw [find?_eq_some, entries_erase, List.mem_filter, decide_eq_true_eq]
  split
  · rename_i hk
    simp [hk]
  · rename_i hk
    rw [find?_eq_some]
    exact and_iff_left hk

theorem find?_insert [DecidableRel r] (m : OrderedMap r V) (k : K) (v : V) (k' : K) :
    (m.insert k v).find? k' = if k' = k then some v else m.find? k' := by
  refine Option.ext fun v' => ?_
  rw [find?_eq_some, entries_insert, List.mem_append, List.mem_cons, List.mem_filter,
    List.mem_filter, decide_eq_true_eq, decide_eq_true_eq]
  split
  · rename_i hk
    have hirrefl : ¬ r k k := irrefl k
    simp [hk, hirrefl, eq_comm]
  · rename_i hk
    have hne : (k', v') ≠ (k, v) := fun h => hk (congrArg Prod.fst h)
    rw [find?_eq_some]
    constructor
    · rintro (⟨hmem, -⟩ | heq | ⟨hmem, -⟩)
      · exact hmem
      · exact absurd heq hne
      · exact hmem
    · intro hmem
      rcases trichotomous_of r k' k with hlt | heq | hgt
      · exact Or.inl ⟨hmem, hlt⟩
      · exact absurd heq hk
      · exact Or.inr (Or.inr ⟨hmem, hgt⟩)

end Keys

/-! ## Renaming -/

section Renaming

variable {K' V' : Type*} {r' : K' → K' → Prop} {f : K → K'} {g : V → V'}
variable {m : OrderedMap r V} {m' : OrderedMap r' V'}

/-- `m'` is `m` with its keys renamed by `f` and its values by `g`. -/
def Renames (f : K → K') (g : V → V') (m : OrderedMap r V) (m' : OrderedMap r' V') : Prop :=
  m'.entries = m.entries.map (Prod.map f g)

theorem renames_empty (f : K → K') (g : V → V') :
    Renames f g (empty : OrderedMap r V) (empty : OrderedMap r' V') := rfl

theorem Renames.begin?_eq (h : Renames f g m m') : m'.begin? = m.begin?.map (Prod.map f g) := by
  rw [begin?, begin?, h, List.head?_map]

theorem Renames.find?_eq [DecidableEq K] [DecidableEq K'] (h : Renames f g m m')
    (hf : Function.Injective f) (k : K) : m'.find? (f k) = (m.find? k).map g := by
  rw [find?, find?, h, List.find?_map, Option.map_map, Option.map_map]
  have hkey : ((fun e : K' × V' => decide (e.1 = f k)) ∘ Prod.map f g) =
      fun e : K × V => decide (e.1 = k) := by
    funext e
    simp only [Function.comp, Prod.map_fst, hf.eq_iff]
  rw [hkey]
  rfl

theorem Renames.erase [DecidableEq K] [DecidableEq K'] (h : Renames f g m m')
    (hf : Function.Injective f) (k : K) : Renames f g (m.erase k) (m'.erase (f k)) := by
  rw [Renames, entries_erase, entries_erase, h, List.filter_map]
  refine congrArg _ (List.filter_congr fun e _ => ?_)
  simp only [Function.comp, Prod.map_fst, ne_eq, hf.eq_iff]

theorem Renames.insert [IsStrictTotalOrder K r] [IsStrictTotalOrder K' r'] [DecidableRel r]
    [DecidableRel r'] (h : Renames f g m m') (hf : ∀ a b, r' (f a) (f b) ↔ r a b) (k : K)
    (v : V) : Renames f g (m.insert k v) (m'.insert (f k) (g v)) := by
  rw [Renames, entries_insert, entries_insert, h, List.filter_map, List.filter_map,
    List.map_append, List.map_cons]
  have hbefore : ((fun e : K' × V' => decide (r' e.1 (f k))) ∘ Prod.map f g) =
      fun e : K × V => decide (r e.1 k) := by
    funext e
    simp only [Function.comp, Prod.map_fst, hf]
  have hafter : ((fun e : K' × V' => decide (r' (f k) e.1)) ∘ Prod.map f g) =
      fun e : K × V => decide (r k e.1) := by
    funext e
    simp only [Function.comp, Prod.map_fst, hf]
  rw [hbefore, hafter]
  rfl

end Renaming

end OrderedMap
end MatchingEngine
