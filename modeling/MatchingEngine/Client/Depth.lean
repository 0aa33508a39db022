import MatchingEngine.Client.Quantities
import MatchingEngine.OrderBook.Depth

/-!
# The depth a client is shown

Along lines that set positive quantities every queue holds positive quantities, each at
most the largest `int`.  Their sum is not bounded by it: two orders at one price are
enough to exceed the accumulator of `printBook`.
-/

namespace MatchingEngine

variable {P : Type} [Zero P] [LinearOrder P]

/-- **The displayed depth is exact** exactly when an `int` can hold the quantity at each
of the best five prices of either side.  This is so after any lines that set positive
quantities, however many orders they leave at a price. -/
theorem depth_exact_iff (toDouble : ℚ → Option P) (lines : List Line)
    (hpos : ∀ k l r, k ++ [l] <+: lines → readRequest toDouble l.text = .ok r →
      r.SetsPositive (exchangeAfter toDouble k)) (symbol : Str) :
    ((exchangeAfter toDouble lines).book symbol).ExactBook symbol ↔
      ∀ s, ∀ e ∈ (((exchangeAfter toDouble lines).book symbol).levels s).entries.take 5,
        exactQty e.2 ≤ 2147483647 :=
  OrderBook.exactBook_iff (linked_exchangeAfter toDouble lines symbol).nonempty
    (fun s => positive_exchangeAfter lines hpos symbol s) symbol

/-- Two `BUY` lines of positive quantities set positive quantities. -/
theorem setsPositive_two_buys {l₁ l₂ : Line} (symbol : Str) (q₁ q₂ : Int32) (p₁ p₂ : ℚ)
    (h₁ : readRequest (some : ℚ → Option ℚ) l₁.text = .ok (.order .buy symbol q₁ p₁))
    (h₂ : readRequest (some : ℚ → Option ℚ) l₂.text = .ok (.order .buy symbol q₂ p₂))
    (hq₁ : 0 < q₁) (hq₂ : 0 < q₂) :
    ∀ k l r, k ++ [l] <+: [l₁, l₂] → readRequest (some : ℚ → Option ℚ) l.text = .ok r →
      r.SetsPositive (exchangeAfter (some : ℚ → Option ℚ) k) := by
  intro k l r hpre hr
  have hl : l ∈ [l₁, l₂] := hpre.subset (List.mem_append_right _ (List.mem_singleton_self l))
  rcases List.mem_cons.mp hl with rfl | hl
  · obtain rfl := Except.ok.inj (h₁.symm.trans hr)
    exact hq₁
  · obtain rfl := List.mem_singleton.mp hl
    obtain rfl := Except.ok.inj (h₂.symm.trans hr)
    exact hq₂

/-- Two orders of 5 and 7 at one price are shown as 12. -/
theorem depth_exact_small :
    ((exchangeAfter (some : ℚ → Option ℚ) [⟨"BUY A 5 1".toList, 1, 1, 1⟩,
      ⟨"BUY A 7 1".toList, 2, 2, 2⟩]).book ['A']).ExactBook ['A'] := by
  refine (depth_exact_iff _ _ (setsPositive_two_buys ['A'] 5 7 1 1 (by decide +kernel)
    (by decide +kernel) (by decide) (by decide)) _).mpr ?_
  intro s
  cases s <;> decide +kernel

/-- One order of the largest `int` and one of 1 at one price are shown as a negative
quantity. -/
theorem depth_wraps :
    ¬ ∀ lines : List Line, (∀ k l r, k ++ [l] <+: lines →
        readRequest (some : ℚ → Option ℚ) l.text = .ok r →
        r.SetsPositive (exchangeAfter (some : ℚ → Option ℚ) k)) →
      ∀ symbol, ((exchangeAfter (some : ℚ → Option ℚ) lines).book symbol).ExactBook symbol := by
  intro hall
  have hexact := hall [⟨"BUY A 2147483647 1".toList, 1, 1, 1⟩, ⟨"BUY A 1 1".toList, 2, 2, 2⟩]
    (setsPositive_two_buys ['A'] 2147483647 1 1 1 (by decide +kernel) (by decide +kernel)
      (by decide) (by decide)) ['A']
  obtain ⟨bids, asks, hprint, hbids, -⟩ := hexact
  have hshown : ((exchangeAfter (some : ℚ → Option ℚ)
      [⟨"BUY A 2147483647 1".toList, 1, 1, 1⟩, ⟨"BUY A 1 1".toList, 2, 2, 2⟩]).book
        ['A']).printBook ['A'] = [.book ['A'] [⟨1, -2147483648, 2⟩] []] := by decide +kernel
  rw [hshown] at hprint
  simp only [List.cons.injEq, Event.book.injEq, true_and, and_true] at hprint
  obtain ⟨rfl, -⟩ := hprint
  have htotal := hbids.total _ (List.mem_singleton_self _)
  exact absurd htotal (by decide +kernel)

end MatchingEngine
