import SkyEngine.Memory.Routing

/-!
# Memory — UsedBytes

`GetUsedBytes` answers from two sources: the counters, or, asked to
refresh, `mspace_mallinfo`. The mspace knows nothing of fallback blocks, so
the refreshed figure covers the cached one only while what the mspace
reports beside its blocks is as much as they are.
-/

namespace SkyEngine.Memory

open Blocks

/-- `GetUsedBytes(true)` is at least `GetUsedBytes(false)`. -/
def System.RefreshCovers (s : System) (uordblks : Nat) : Prop :=
  ∃ refreshed cached h h', s.heap.getUsedBytes true uordblks = .ok (refreshed, h)
    ∧ s.heap.getUsedBytes false uordblks = .ok (cached, h') ∧ cached ≤ refreshed

/-- The calls after which counters and blocks are still the same run's. -/
def NoReset : HeapCall → Prop
  | .terminate | .clear => False
  | _ => True

/-! ## Runs without a reset -/

section Steps

variable {env : Allocators} {s s' : System}

/-- Once initialised, the heap stays so; before, nothing happens to it. -/
theorem initialised_call (h : s = {} ∨ s.heap.mem ≠ none) {c : HeapCall} (hc : NoReset c)
    (hallowed : s.Allowed c) (hcall : s.call env c = .ok s') :
    s' = {} ∨ s'.heap.mem ≠ none := by
  cases c with
  | initializeHeap memory maxSize name isClearMemory isClearAllowed =>
      obtain ⟨h', hinit, hs'⟩ := bind_ok hcall
      cases hs'
      obtain ⟨_, _, _, _, _, _, m, hm⟩ := Heap.initializeHeap_ok hinit
      exact .inr (by simp [hm])
  | terminate => exact hc.elim
  | clear => exact hc.elim
  | allocate size tag align =>
      obtain ⟨a, halloc, hs'⟩ := bind_ok hcall
      cases hs'
      rcases Heap.allocate_ok halloc with ⟨_, rfl⟩ | ⟨m, b, n, hm, _, _, _, rfl⟩
        | ⟨m, b, k, n, hm, _, _, _, _, _, rfl⟩
      · exact h
      · exact .inr (by simp [hm])
      · exact .inr (by simp [hm])
  | free block =>
      obtain ⟨⟨h', freed⟩, hfree, hret⟩ := bind_ok hcall
      rcases h with rfl | hm
      · rcases hallowed with rfl | ⟨b, hb, _⟩
        · cases hcall
          exact .inl rfl
        · simp at hb
      · rcases Heap.free_ok hfree with ⟨rfl, rfl⟩ | ⟨n, rfl, rfl⟩ | ⟨m, n, rfl, rfl⟩
        all_goals
          cases hret
          exact .inr hm

theorem Housed.placed_of_initialised (h : Housed s) (hs : s = {} ∨ s.heap.mem ≠ none) :
    s.Placed := by
  rcases hs with rfl | hm
  · exact Reaches.placed (.start : Reaches (fun _ _ => True) {})
  · exact h.placed hm

end Steps

/-- The counters of such a run are exact. -/
theorem Run.ledger {s : System} (h : Run NoReset s) :
    (s = {} ∨ s.heap.mem ≠ none) ∧ Ledger s := by
  induction h with
  | start => exact ⟨.inl rfl, rfl, rfl, fun _ => rfl⟩
  | @call s s' c env hrun hc hallowed hvacant hsound hcall ih =>
      obtain ⟨hs, hledger⟩ := ih
      have hs' := initialised_call hs hc hallowed hcall
      have hp := hrun.housed.placed_of_initialised hs
      have hp' := (hrun.housed.call hvacant hsound hcall).placed_of_initialised hs'
      have hsettled : CountersSettled s c := by
        cases c with
        | terminate => exact hc.elim
        | clear => exact hc.elim
        | initializeHeap => trivial
        | allocate => trivial
        | free => trivial
      exact ⟨hs', hledger.call hp hp' hallowed hsettled hcall⟩

/-- **What the two calls return**: the refreshed figure covers the cached one
exactly if the mspace reports as much as all live blocks, the fallback
blocks included. -/
theorem refreshCovers_iff {s : System} {m : Nat} (h : Run NoReset s)
    (hm : s.heap.mem = some m) (uordblks : Nat) :
    s.RefreshCovers uordblks ↔ total s.mspace + total s.stl ≤ uordblks := by
  have hp := h.housed.placed (by simp [hm])
  obtain ⟨cached, hcached⟩ := (h.ledger.2.accounted hp).used uordblks
  constructor
  · rintro ⟨refreshed, figure, h₁, h₂, htrue, hfalse, hle⟩
    rw [hcached] at hfalse
    rw [Heap.getUsedBytes, if_pos rfl, hm] at htrue
    cases hfalse
    cases htrue
    exact hle
  · intro hle
    have htrue : ∃ refreshed, s.heap.getUsedBytes true uordblks = .ok (uordblks, refreshed) :=
      ⟨_, by rw [Heap.getUsedBytes, if_pos rfl, hm]⟩
    obtain ⟨refreshed, htrue⟩ := htrue
    exact ⟨uordblks, _, refreshed, cached, htrue, hcached, hle⟩

end SkyEngine.Memory
