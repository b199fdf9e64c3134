import SkyEngine.Lib.BitTrie

/-!
# Lib — BestFit

The best fit for a request among the members of a bitwise trie: down the
path of the request, remembering the deepest subtree to the right of it,
then down the left edge of that subtree. What a member leaves over is a
function `rem` of its key that may wrap around, so long as a key too small
never looks like a fit.
-/

namespace BitTrie

variable {α : Type}

/-- The best member so far, and what it leaves over. -/
structure Fit (α : Type) where
  v : Option (Nat × α)
  rsize : Nat

section Search

variable (rem : Nat → Nat)

/-- Take a member that leaves less over. -/
def Fit.offer (key : Nat) (x : α) (f : Fit α) : Fit α :=
  if rem key < f.rsize then ⟨some (key, x), rem key⟩ else f

def isNil : BitTrie α → Bool
  | nil => true
  | node .. => false

/-- Along the left edge: the left child, or the right one where there is no
left one. -/
def leftmost : BitTrie α → Fit α → Fit α
  | nil, f => f
  | node key head _ left right, f =>
      if left.isNil then right.leftmost (f.offer rem key head)
      else left.leftmost (f.offer rem key head)

/-- Down the path, up to a member that leaves nothing over. The second
result is where the left edge is to be followed: `rst`, the deepest right
subtree not taken, at the end of the path. -/
def descend : (Nat → Bool) → BitTrie α → BitTrie α → Fit α → Fit α × BitTrie α
  | _, nil, rst, f => (f, rst)
  | path, node key head ring left right, rst, f =>
      if rem key < f.rsize ∧ rem key = 0 then
        (f.offer rem key head, node key head ring left right)
      else if path 0 then
        descend (fun n => path (n + 1)) right rst (f.offer rem key head)
      else
        descend (fun n => path (n + 1)) left (if right.isNil then rst else right)
          (f.offer rem key head)

end Search

/-- What `rem` must do for requests of `n`: leave the difference over for
keys that fit, and at least `bound` for others. -/
structure Remainder (rem : Nat → Nat) (n bound : Nat) : Prop where
  fits : ∀ k, n ≤ k → k < n + bound → rem k = k - n
  misfits : ∀ k < n, bound ≤ rem k

/-- `f` is the best fit for `n` among `members`. -/
structure Fit.Best (n bound : Nat) (members : List (Nat × α)) (f : Fit α) : Prop where
  chosen : ∀ e, f.v = some e → e ∈ members ∧ n ≤ e.1 ∧ f.rsize = e.1 - n ∧ f.rsize < bound
  none : f.v = none → f.rsize = bound
  least : ∀ e ∈ members, n ≤ e.1 → f.rsize ≤ e.1 - n

variable {rem : Nat → Nat} {n bound : Nat} {S : List (Nat × α)} {f : Fit α}

theorem Fit.Best.rsize_le (h : f.Best n bound S) : f.rsize ≤ bound := by
  cases hv : f.v with
  | none => exact Nat.le_of_eq (h.none hv)
  | some e => exact Nat.le_of_lt (h.chosen e hv).2.2.2

/-- Members that are too small, or no better than one already seen, change
nothing. -/
theorem Fit.Best.extend {S' : List (Nat × α)} (h : f.Best n bound S) (hsub : S ⊆ S')
    (hnew : ∀ e ∈ S', n ≤ e.1 → f.rsize ≤ e.1 - n) : f.Best n bound S' where
  chosen := fun e he => ⟨hsub (h.chosen e he).1, (h.chosen e he).2⟩
  none := h.none
  least := hnew

theorem Fit.Best.offer (hrem : Remainder rem n bound) (h : f.Best n bound S) {key : Nat}
    (x : α) (hkey : key < n + bound) : (f.offer rem key x).Best n bound ((key, x) :: S) := by
  have hle := h.rsize_le
  unfold Fit.offer
  split
  · rename_i hlt
    have hfit : n ≤ key := by
      by_contra hno
      have hmis := hrem.misfits key (by omega)
      omega
    have hr := hrem.fits key hfit hkey
    constructor
    case chosen =>
      intro e he
      cases he
      exact ⟨List.mem_cons_self, hfit, hr, Nat.lt_of_lt_of_le hlt hle⟩
    case none =>
      intro hnone
      cases hnone
    case least =>
      intro e he hn
      rcases List.mem_cons.mp he with rfl | he
      · exact Nat.le_of_eq hr
      · have hold := h.least e he hn
        show rem key ≤ e.1 - n
        omega
  · rename_i hge
    refine h.extend (List.subset_cons_self _ _) fun e he hn => ?_
    rcases List.mem_cons.mp he with rfl | he
    · have hr := hrem.fits key hn hkey
      show f.rsize ≤ key - n
      omega
    · exact h.least e he hn

theorem leftmost_of_exact {t : BitTrie α} (h : f.rsize = 0) : t.leftmost rem f = f := by
  have hoffer : ∀ (key : Nat) (x : α), f.offer rem key x = f := by
    intro key x
    rw [Fit.offer, if_neg (by omega)]
  induction t with
  | nil => rfl
  | node key head ring left right ihl ihr =>
      rw [leftmost, hoffer, ihl, ihr]
      split <;> rfl

theorem isNil_iff {t : BitTrie α} : t.isNil = true ↔ t = nil := by
  cases t with
  | nil => exact ⟨fun _ => rfl, fun _ => rfl⟩
  | node key head ring left right => exact ⟨fun h => (nomatch h), fun h => nomatch h⟩

theorem exists_entry {t : BitTrie α} (h : t ≠ nil) : ∃ e, e ∈ t.entries := by
  cases t with
  | nil => exact absurd rfl h
  | node key head ring left right => exact ⟨(key, head), List.mem_cons_self⟩

/-- From some members of a node and of `U` to all of them. The ring is no
better than the head. -/
theorem Fit.Best.node {key : Nat} {head : α} {ring : List α} {left right : BitTrie α}
    {U : List (Nat × α)} (h : f.Best n bound S) (hhead : (key, head) ∈ S)
    (hsub : S ⊆ (node key head ring left right).entries ++ U)
    (hleft : ∀ e ∈ left.entries, n ≤ e.1 → f.rsize ≤ e.1 - n)
    (hright : ∀ e ∈ right.entries, n ≤ e.1 → f.rsize ≤ e.1 - n)
    (hrest : ∀ e ∈ U, n ≤ e.1 → f.rsize ≤ e.1 - n) :
    f.Best n bound ((BitTrie.node key head ring left right).entries ++ U) := by
  refine h.extend hsub fun e he hn => ?_
  simp only [entries, List.mem_append, List.mem_cons, List.mem_map] at he
  rcases he with (rfl | ⟨x, _, rfl⟩ | he | he) | he
  · exact h.least _ hhead hn
  · exact h.least (key, head) hhead hn
  · exact hleft e he hn
  · exact hright e he hn
  · exact hrest e he hn

/-- **The left edge holds the least fit** of a trie all of whose members
fit. -/
theorem Fit.Best.leftmost (hrem : Remainder rem n bound) {w lo : Nat} {t : BitTrie α}
    (ht : Ordered w lo t) (hfit : ∀ e ∈ t.entries, n ≤ e.1 ∧ e.1 < n + bound)
    (h : f.Best n bound S) : (t.leftmost rem f).Best n bound (t.entries ++ S) := by
  induction t generalizing w lo f S with
  | nil => exact h
  | node key head ring left right ihl ihr =>
      have hkey := hfit (key, head) List.mem_cons_self
      have hoffer := h.offer hrem head hkey.2
      have hl : ∀ e ∈ left.entries, n ≤ e.1 ∧ e.1 < n + bound :=
        fun e he => hfit e (by simp [entries, he])
      have hr : ∀ e ∈ right.entries, n ≤ e.1 ∧ e.1 < n + bound :=
        fun e he => hfit e (by simp [entries, he])
      unfold BitTrie.leftmost
      split
      · rename_i hnil
        rw [isNil_iff] at hnil
        subst hnil
        obtain ⟨w', lo', ho⟩ : ∃ w lo, Ordered w lo right := by
          cases w with
          | zero => exact ⟨0, lo, by rw [ht.2.2]; exact ordered_nil _ _⟩
          | succ w => exact ⟨w, _, ht.2.2.2⟩
        have hbest := ihr ho hr hoffer
        refine hbest.node (by simp) ?_ (fun e he => absurd he List.not_mem_nil)
          (fun e he => hbest.least e (by simp [he])) fun e he => hbest.least e (by simp [he])
        intro e he
        simp only [entries, List.mem_append, List.mem_cons] at he ⊢
        tauto
      · rename_i hne
        have hne' : left ≠ nil := fun hn => hne (isNil_iff.mpr hn)
        cases w with
        | zero => exact absurd ht.2.1 hne'
        | succ w =>
            obtain ⟨e₀, he₀⟩ := exists_entry hne'
            have hbest := ihl ht.2.2.1 hl hoffer
            refine hbest.node (by simp) ?_ (fun e he => hbest.least e (by simp [he])) ?_
              fun e he => hbest.least e (by simp [he])
            · intro e he
              simp only [entries, List.mem_append, List.mem_cons] at he ⊢
              tauto
            · -- everything to the right is above everything to the left
              intro e he _
              have hleast := hbest.least e₀ (by simp [he₀]) (hl e₀ he₀).1
              have hlow := ht.2.2.1.key_range he₀
              have hhigh := ht.2.2.2.key_range he
              omega

/-- **The search finds the best fit** among the members of the trie, and of
the subtree to the right of it that the search started with. -/
theorem Fit.Best.descend (hrem : Remainder rem n bound) {w lo : Nat} {path : Nat → Bool}
    {t rst : BitTrie α} (ht : Ordered w lo t) (hlo : lo ≤ n) (hhi : n < lo + 2 ^ w)
    (hpath : Path w lo n path) (hkeys : ∀ e ∈ t.entries, e.1 < n + bound)
    (hrst : ∃ w' lo', Ordered w' lo' rst)
    (hfar : ∀ e ∈ rst.entries, lo + 2 ^ w ≤ e.1 ∧ e.1 < n + bound)
    (h : f.Best n bound S) :
    ((t.descend rem path rst f).2.leftmost rem (t.descend rem path rst f).1).Best n bound
      (t.entries ++ (rst.entries ++ S)) := by
  induction t generalizing w lo path rst f S with
  | nil =>
      obtain ⟨w', lo', ho⟩ := hrst
      have hbest := h.leftmost hrem ho
        fun e he => ⟨by have := (hfar e he).1; omega, (hfar e he).2⟩
      exact hbest
  | node key head ring left right ihl ihr =>
      have hkey := hkeys (key, head) List.mem_cons_self
      have hoffer := h.offer hrem head hkey
      have hkl : ∀ e ∈ left.entries, e.1 < n + bound := fun e he => hkeys e (by simp [entries, he])
      have hkr : ∀ e ∈ right.entries, e.1 < n + bound :=
        fun e he => hkeys e (by simp [entries, he])
      unfold BitTrie.descend
      split
      · -- nothing is left over: no other member can do better
        rename_i hexact
        have hzero : (f.offer rem key head).rsize = 0 := by
          rw [Fit.offer, if_pos hexact.1]
          exact hexact.2
        show (BitTrie.leftmost rem _ (f.offer rem key head)).Best n bound _
        rw [leftmost_of_exact hzero]
        refine hoffer.extend ?_ fun e _ _ => by
          rw [hzero]
          exact Nat.zero_le _
        intro e he
        simp only [entries, List.mem_append, List.mem_cons] at he ⊢
        tauto
      · cases w with
        | zero =>
            -- the only key left is `n` itself
            obtain ⟨rfl, hl, hr⟩ := ht
            subst hl hr
            obtain ⟨w', lo', ho⟩ := hrst
            have hbest := hoffer.leftmost hrem ho
              fun e he => ⟨by have := (hfar e he).1; omega, (hfar e he).2⟩
            have hend : ∀ b : Bool, (if b then
                BitTrie.descend rem (fun n => path (n + 1)) nil rst (f.offer rem key head)
                else BitTrie.descend rem (fun n => path (n + 1)) nil
                  (if (nil : BitTrie α).isNil then rst else nil) (f.offer rem key head))
                = (f.offer rem key head, rst) := by
              intro b
              cases b <;> rfl
            rw [hend]
            refine hbest.node (by simp) ?_ (fun e he => absurd he List.not_mem_nil)
              (fun e he => absurd he List.not_mem_nil) ?_
            · intro e he
              simp only [entries, List.mem_append, List.mem_cons] at he ⊢
              tauto
            · intro e he
              exact hbest.least e (by simp only [List.mem_append, List.mem_cons] at he ⊢; tauto)
        | succ w =>
            obtain ⟨h1, h2, hl, hr⟩ := ht
            obtain ⟨hbit, hrest⟩ := hpath
            have hpow : 2 ^ (w + 1) = 2 ^ w + 2 ^ w := by rw [Nat.pow_succ]; omega
            split
            · -- to the right: whatever lies to the left is too small
              rename_i hp
              rw [if_pos hp] at hrest
              have hge := hbit.mp hp
              have hbest := ihr hr hge (by omega) hrest hkr hrst
                (fun e he => ⟨by have := (hfar e he).1; omega, (hfar e he).2⟩) hoffer
              refine hbest.node (by simp) ?_ ?_ (fun e he => hbest.least e (by simp [he])) ?_
              · intro e he
                simp only [entries, List.mem_append, List.mem_cons] at he ⊢
                tauto
              · intro e he hn
                have hlow := hl.key_range he
                omega
              · intro e he
                exact hbest.least e (by simp only [List.mem_append, List.mem_cons] at he ⊢; tauto)
            · rename_i hp
              rw [if_neg hp] at hrest
              have hlt : n < lo + 2 ^ w := by
                by_contra hge
                exact hp (hbit.mpr (by omega))
              split
              · rename_i hnil
                rw [isNil_iff] at hnil
                subst hnil
                have hbest := ihl hl hlo hlt hrest hkl hrst
                  (fun e he => ⟨by have := (hfar e he).1; omega, (hfar e he).2⟩) hoffer
                refine hbest.node (by simp) ?_ (fun e he => hbest.least e (by simp [he]))
                  (fun e he => absurd he List.not_mem_nil) ?_
                · intro e he
                  simp only [entries, List.mem_append, List.mem_cons] at he ⊢
                  tauto
                · intro e he
                  exact hbest.least e
                    (by simp only [List.mem_append, List.mem_cons] at he ⊢; tauto)
              · -- the right subtree takes the place of the one remembered
                rename_i hne
                have hne' : right ≠ nil := fun hn => hne (isNil_iff.mpr hn)
                obtain ⟨e₀, he₀⟩ := exists_entry hne'
                have hbest := ihl hl hlo hlt hrest hkl ⟨w, _, hr⟩
                  (fun e he => ⟨(hr.key_range he).1, hkr e he⟩) hoffer
                refine hbest.node (by simp) ?_ (fun e he => hbest.least e (by simp [he]))
                  (fun e he => hbest.least e (by simp [he])) ?_
                · intro e he
                  simp only [entries, List.mem_append, List.mem_cons] at he ⊢
                  tauto
                · intro e he hn
                  rcases List.mem_append.mp he with he | he
                  · have hnear := hr.key_range he₀
                    have hleast := hbest.least e₀ (by simp [he₀]) (by omega)
                    have hbeyond := (hfar e he).1
                    omega
                  · exact hbest.least e (by simp [he]) hn

/-- The left edge forgets nothing. -/
theorem leftmost_v_eq_none {t : BitTrie α} (h : (t.leftmost rem f).v = none) : f.v = none := by
  induction t generalizing f with
  | nil => exact h
  | node key head ring left right ihl ihr =>
      have hoffer : (f.offer rem key head).v = none := by
        unfold leftmost at h
        split at h
        · exact ihr h
        · exact ihl h
      unfold Fit.offer at hoffer
      split at hoffer
      · cases hoffer
      · exact hoffer

/-- As long as nothing was chosen on the way down, what the left edge is to
be followed of fits, and is part of the trie or of `rst`. -/
theorem descend_rst {w lo : Nat} {path : Nat → Bool} {t rst : BitTrie α}
    (ht : Ordered w lo t) (hpath : Path w lo n path) (hfit : ∀ e ∈ rst.entries, n ≤ e.1)
    (hnone : (t.descend rem path rst f).1.v = none) :
    ∀ e ∈ (t.descend rem path rst f).2.entries,
      n ≤ e.1 ∧ (e ∈ t.entries ∨ e ∈ rst.entries) := by
  induction t generalizing w lo path rst f with
  | nil => exact fun e he => ⟨hfit e he, .inr he⟩
  | node key head ring left right ihl ihr =>
      unfold descend at hnone ⊢
      split
      · rename_i hexact
        rw [if_pos hexact, Fit.offer, if_pos hexact.1] at hnone
        cases hnone
      · rename_i hinexact
        rw [if_neg hinexact] at hnone
        obtain ⟨w', lo', lo'', hl, hr, hp⟩ : ∃ w' lo' lo'', Ordered w' lo' left
            ∧ Ordered w' lo'' right
            ∧ ((path 0 = true → Path w' lo'' n fun n => path (n + 1))
              ∧ (¬ path 0 = true → Path w' lo' n (fun n => path (n + 1))
                ∧ (right = nil ∨ n < lo''))) := by
          cases w with
          | zero =>
              refine ⟨0, lo, lo, ?_, ?_, fun _ => trivial, fun _ => ⟨trivial, .inl ht.2.2⟩⟩
              · rw [ht.2.1]
                exact ordered_nil _ _
              · rw [ht.2.2]
                exact ordered_nil _ _
          | succ w =>
              obtain ⟨_, _, hl, hr⟩ := ht
              obtain ⟨hbit, hrest⟩ := hpath
              refine ⟨w, lo, lo + 2 ^ w, hl, hr, fun hp => ?_, fun hp => ⟨?_, .inr ?_⟩⟩
              · rwa [if_pos hp] at hrest
              · rwa [if_neg hp] at hrest
              · by_contra hge
                exact hp (hbit.mpr (by omega))
        split
        · rename_i hbit
          rw [if_pos hbit] at hnone
          intro e he
          obtain ⟨hn, hmem⟩ := ihr hr (hp.1 hbit) hfit hnone e he
          refine ⟨hn, hmem.imp_left fun hin => ?_⟩
          simp [entries, hin]
        · rename_i hbit
          rw [if_neg hbit] at hnone
          obtain ⟨hpath', hright⟩ := hp.2 hbit
          have hfit' : ∀ e ∈ (if right.isNil then rst else right).entries, n ≤ e.1 := by
            intro e he
            split at he
            · exact hfit e he
            · rename_i hne
              rcases hright with rfl | hlt
              · cases he
              · exact Nat.le_of_lt (Nat.lt_of_lt_of_le hlt (hr.key_range he).1)
          intro e he
          obtain ⟨hn, hmem⟩ := ihl hl hpath' hfit' hnone e he
          refine ⟨hn, ?_⟩
          rcases hmem with hin | hin
          · exact .inl (by simp [entries, hin])
          · split at hin
            · exact .inr hin
            · exact .inl (by simp [entries, hin])

end BitTrie
