import Mathlib.Algebra.Group.Nat.Defs
import Mathlib.Data.List.Nodup
import Mathlib.Tactic.ByContra

/-!
# Lib — BitTrie

A bitwise digital trie: the keys below a node share the bits of the path to
it, most significant first, and a node holds one of them itself. Members
with one key form a ring at one node. A node that loses its last member is
replaced by a leaf from below it, so that its descendants keep their paths.
-/

/-- A trie of members `α` under natural keys; `ring` is what follows `head`. -/
inductive BitTrie (α : Type) where
  | nil
  | node (key : Nat) (head : α) (ring : List α) (left right : BitTrie α)

namespace BitTrie

variable {α : Type}

/-- Every member with its key. -/
def entries : BitTrie α → List (Nat × α)
  | nil => []
  | node key head ring left right =>
      (key, head) :: (ring.map (Prod.mk key) ++ (left.entries ++ right.entries))

/-- The members alone. -/
def members (t : BitTrie α) : List α := t.entries.map Prod.snd

theorem mem_members {t : BitTrie α} {key : Nat} {x : α} (h : (key, x) ∈ t.entries) :
    x ∈ t.members := List.mem_map_of_mem (f := Prod.snd) h

/-- The keys of a trie of width `w` lie in `[lo, lo + 2 ^ w)`, the upper half
of them to the right. -/
def Ordered : Nat → Nat → BitTrie α → Prop
  | _, _, nil => True
  | 0, lo, node key _ _ left right => key = lo ∧ left = nil ∧ right = nil
  | w + 1, lo, node key _ _ left right =>
      lo ≤ key ∧ key < lo + 2 ^ (w + 1) ∧ Ordered w lo left ∧ Ordered w (lo + 2 ^ w) right

/-- `path` is the way to `key` in a trie of width `w` from `lo`. -/
def Path : Nat → Nat → Nat → (Nat → Bool) → Prop
  | 0, _, _, _ => True
  | w + 1, lo, key, path =>
      (path 0 = true ↔ lo + 2 ^ w ≤ key)
        ∧ Path w (if path 0 then lo + 2 ^ w else lo) key fun n => path (n + 1)

/-- The bits of a key, most significant first, are its path. -/
theorem path_of_bits {w lo key : Nat} {path : Nat → Bool} (hdvd : 2 ^ w ∣ lo) (hlo : lo ≤ key)
    (hhi : key < lo + 2 ^ w)
    (hbits : ∀ n < w, path n = true ↔ key / 2 ^ (w - 1 - n) % 2 = 1) : Path w lo key path := by
  induction w generalizing lo path with
  | zero => trivial
  | succ w ih =>
      obtain ⟨m, rfl⟩ := hdvd
      have hpos := Nat.two_pow_pos w
      have hpow : 2 ^ (w + 1) * m = 2 ^ w * (2 * m) := by rw [Nat.pow_succ, Nat.mul_assoc]
      have hpow' : 2 ^ (w + 1) = 2 ^ w + 2 ^ w := by rw [Nat.pow_succ]; omega
      rw [hpow] at hlo hhi
      rw [hpow'] at hhi
      obtain ⟨r, rfl⟩ : ∃ r, key = 2 ^ w * (2 * m) + r := ⟨_, (Nat.add_sub_cancel' hlo).symm⟩
      have hdiv : (2 ^ w * (2 * m) + r) / 2 ^ w = 2 * m + r / 2 ^ w := Nat.mul_add_div hpos _ _
      have htop : path 0 = true ↔ 2 ^ w ≤ r := by
        rw [hbits 0 (by omega)]
        have hsub : w + 1 - 1 - 0 = w := rfl
        rw [hsub, hdiv]
        by_cases hr : 2 ^ w ≤ r
        · have hone : r / 2 ^ w = 1 := Nat.div_eq_of_lt_le (by omega) (by omega)
          omega
        · have hzero : r / 2 ^ w = 0 := Nat.div_eq_of_lt (by omega)
          omega
      refine ⟨?_, ?_⟩
      · rw [htop, hpow]
        omega
      · rw [hpow]
        refine ih ?_ ?_ ?_ fun n hn => ?_
        · split
          · exact ⟨2 * m + 1, by rw [Nat.mul_add, Nat.mul_one]⟩
          · exact ⟨2 * m, rfl⟩
        · split
          · have hr := htop.mp ‹_›
            omega
          · omega
        · split
          · omega
          · have hr : ¬ 2 ^ w ≤ r := fun hge => ‹¬ _› (htop.mpr hge)
            omega
        · have hbit := hbits (n + 1) (by omega)
          have hsub : w + 1 - 1 - (n + 1) = w - 1 - n := by omega
          rwa [hsub] at hbit

theorem ordered_nil (w lo : Nat) : Ordered w lo (nil : BitTrie α) := by
  cases w <;> trivial

theorem Ordered.key_range {w lo : Nat} {t : BitTrie α} (h : Ordered w lo t) {e : Nat × α}
    (he : e ∈ t.entries) : lo ≤ e.1 ∧ e.1 < lo + 2 ^ w := by
  induction t generalizing w lo with
  | nil => cases he
  | node key head ring left right ihl ihr =>
      have hkey : lo ≤ key ∧ key < lo + 2 ^ w := by
        cases w with
        | zero =>
            obtain ⟨rfl, _, _⟩ := h
            simp
        | succ w => exact ⟨h.1, h.2.1⟩
      simp only [entries, List.mem_cons, List.mem_append, List.mem_map] at he
      rcases he with rfl | ⟨x, _, rfl⟩ | hleft | hright
      · exact hkey
      · exact hkey
      · cases w with
        | zero =>
            rw [h.2.1] at hleft
            cases hleft
        | succ w =>
            have hl := ihl h.2.2.1 hleft
            rw [Nat.pow_succ]
            omega
      · cases w with
        | zero =>
            rw [h.2.2] at hright
            cases hright
        | succ w =>
            have hr := ihr h.2.2.2 hright
            rw [Nat.pow_succ]
            omega

/-! ## Insertion -/

/-- Follow the path to a node with the key, or to the end of the trie. -/
def insert (key : Nat) (x : α) : (Nat → Bool) → BitTrie α → BitTrie α
  | _, nil => node key x [] nil nil
  | path, node key' head ring left right =>
      if key' ≠ key then
        if path 0 then node key' head ring left (insert key x (fun n => path (n + 1)) right)
        else node key' head ring (insert key x (fun n => path (n + 1)) left) right
      else node key' head (x :: ring) left right

theorem entries_insert (key : Nat) (x : α) (path : Nat → Bool) (t : BitTrie α) :
    (t.insert key x path).entries.Perm ((key, x) :: t.entries) := by
  induction t generalizing path with
  | nil => exact List.Perm.refl _
  | node key' head ring left right ihl ihr =>
      unfold insert
      split
      · split
        · simp only [entries]
          refine List.Perm.trans (.cons _ (.append_left _ (.append_left _ (ihr _)))) ?_
          rw [← List.append_assoc, ← List.append_assoc]
          exact .trans (.cons _ List.perm_middle) (.swap _ _ _)
        · simp only [entries]
          refine List.Perm.trans (.cons _ (.append_left _ (.append_right _ (ihl _)))) ?_
          exact .trans (.cons _ List.perm_middle) (.swap _ _ _)
      · rename_i hkey
        rw [Decidable.not_not.mp hkey]
        exact .swap _ _ _

theorem Ordered.insert {w lo key : Nat} {x : α} {path : Nat → Bool} {t : BitTrie α}
    (h : Ordered w lo t) (hlo : lo ≤ key) (hhi : key < lo + 2 ^ w)
    (hpath : Path w lo key path) : Ordered w lo (t.insert key x path) := by
  induction t generalizing w lo path with
  | nil =>
      cases w with
      | zero => exact ⟨by omega, rfl, rfl⟩
      | succ w => exact ⟨hlo, hhi, ordered_nil _ _, ordered_nil _ _⟩
  | node key' head ring left right ihl ihr =>
      unfold BitTrie.insert
      cases w with
      | zero =>
          -- one key is left, and the node has it
          obtain ⟨hkey, hl, hr⟩ := h
          rw [if_neg (by omega)]
          exact ⟨hkey, hl, hr⟩
      | succ w =>
          obtain ⟨h1, h2, hl, hr⟩ := h
          obtain ⟨hbit, hrest⟩ := hpath
          rw [Nat.pow_succ] at hhi
          split
          · split
            · rename_i hp
              rw [if_pos hp] at hrest
              have hge := hbit.mp hp
              exact ⟨h1, h2, hl, ihr hr hge (by omega) hrest⟩
            · rename_i hp
              rw [if_neg hp] at hrest
              have hlt : ¬ lo + 2 ^ w ≤ key := fun hge => hp (hbit.mpr hge)
              exact ⟨h1, h2, ihl hl hlo (by omega) hrest, hr⟩
          · exact ⟨h1, h2, hl, hr⟩

/-! ## Removal -/

/-- The leaf reached by going right wherever possible, and the trie
without it. -/
def popLeaf : BitTrie α → Option ((Nat × α × List α) × BitTrie α)
  | nil => none
  | node key head ring left right =>
      match popLeaf right with
      | some (leaf, right') => some (leaf, node key head ring left right')
      | none =>
          match popLeaf left with
          | some (leaf, left') => some (leaf, node key head ring left' right)
          | none => some ((key, head, ring), nil)

/-- Take a member out. The ring's last member takes the place of its head;
without a ring, a leaf from below the node does. -/
def unlink [DecidableEq α] (x : α) : BitTrie α → BitTrie α
  | nil => nil
  | node key head ring left right =>
      if head = x then
        match ring.getLast? with
        | some last => node key last ring.dropLast left right
        | none =>
            match popLeaf right with
            | some ((key', head', ring'), right') => node key' head' ring' left right'
            | none =>
                match popLeaf left with
                | some ((key', head', ring'), left') => node key' head' ring' left' right
                | none => nil
      else if x ∈ ring then node key head (ring.erase x) left right
      else node key head ring (unlink x left) (unlink x right)

theorem popLeaf_eq_none {t : BitTrie α} : popLeaf t = none ↔ t = nil := by
  cases t with
  | nil => exact ⟨fun _ => rfl, fun _ => rfl⟩
  | node key head ring left right =>
      refine ⟨fun h => ?_, fun h => nomatch h⟩
      unfold popLeaf at h
      split at h
      · cases h
      · split at h <;> cases h

/-- The members of a leaf. -/
def leafEntries (leaf : Nat × α × List α) : List (Nat × α) :=
  (leaf.1, leaf.2.1) :: leaf.2.2.map (Prod.mk leaf.1)

theorem popLeaf_spec {t t' : BitTrie α} {leaf : Nat × α × List α}
    (h : popLeaf t = some (leaf, t')) :
    t.entries.Perm (leafEntries leaf ++ t'.entries)
      ∧ ∀ w lo, Ordered w lo t → Ordered w lo t' := by
  induction t generalizing t' leaf with
  | nil => cases h
  | node key head ring left right ihl ihr =>
      unfold popLeaf at h
      split at h
      · rename_i leaf' right' hpop
        cases h
        obtain ⟨hperm, hord⟩ := ihr hpop
        constructor
        · have hsplit : (node key head ring left right).entries
              = ((key, head) :: ring.map (Prod.mk key) ++ left.entries) ++ right.entries := by
            simp [entries]
          have hsplit' : (node key head ring left right').entries
              = ((key, head) :: ring.map (Prod.mk key) ++ left.entries) ++ right'.entries := by
            simp [entries]
          rw [hsplit, hsplit']
          exact (hperm.append_left _).trans (List.perm_append_comm_assoc _ _ _)
        · intro w lo ho
          cases w with
          | zero =>
              obtain ⟨_, _, hr⟩ := ho
              subst hr
              cases hpop
          | succ w => exact ⟨ho.1, ho.2.1, ho.2.2.1, hord _ _ ho.2.2.2⟩
      · split at h
        · rename_i leaf' left' hpop
          cases h
          obtain ⟨hperm, hord⟩ := ihl hpop
          constructor
          · have hsplit : ∀ l : BitTrie α, (node key head ring l right).entries
                = ((key, head) :: ring.map (Prod.mk key)) ++ (l.entries ++ right.entries) := by
              simp [entries]
            rw [hsplit, hsplit]
            refine List.Perm.trans (.append_left _ (hperm.append_right _)) ?_
            rw [List.append_assoc]
            exact List.perm_append_comm_assoc _ _ _
          · intro w lo ho
            cases w with
            | zero =>
                obtain ⟨_, hl, _⟩ := ho
                subst hl
                cases hpop
            | succ w => exact ⟨ho.1, ho.2.1, hord _ _ ho.2.2.1, ho.2.2.2⟩
        · rename_i _ hr _ hl
          cases h
          rw [popLeaf_eq_none] at hr hl
          subst hr hl
          exact ⟨by simp [entries, leafEntries], fun _ _ _ => ordered_nil _ _⟩

theorem popLeaf_key {t t' : BitTrie α} {leaf : Nat × α × List α} {w lo : Nat}
    (h : popLeaf t = some (leaf, t')) (ho : Ordered w lo t) :
    lo ≤ leaf.1 ∧ leaf.1 < lo + 2 ^ w :=
  ho.key_range ((popLeaf_spec h).1.mem_iff.mpr (List.mem_append_left _ List.mem_cons_self))

section Unlink

variable [DecidableEq α] {x : α}

theorem unlink_of_not_mem {t : BitTrie α} (h : ∀ e ∈ t.entries, e.2 ≠ x) : t.unlink x = t := by
  induction t with
  | nil => rfl
  | node key head ring left right ihl ihr =>
      have hhead : head ≠ x := h (key, head) List.mem_cons_self
      have hring : x ∉ ring := by
        intro hx
        refine h (key, x) ?_ rfl
        simp [entries, hx]
      have hleft : left.unlink x = left := ihl fun e he => h e (by simp [entries, he])
      have hright : right.unlink x = right := ihr fun e he => h e (by simp [entries, he])
      rw [unlink, if_neg hhead, if_neg hring, hleft, hright]

/-- The node whose head goes away, with its children. -/
theorem entries_unlink_head (key : Nat) (ring : List α) (left right : BitTrie α) :
    (node key x ring left right).entries.Perm
      ((key, x) :: ((node key x ring left right).unlink x).entries) := by
  rw [unlink, if_pos rfl]
  refine List.Perm.cons _ ?_
  cases hlast : ring.getLast? with
  | some last =>
      have hring : ring = ring.dropLast ++ [last] := by
        have hne : ring ≠ [] := by
          rintro rfl
          cases hlast
        rw [List.getLast?_eq_some_getLast hne] at hlast
        cases hlast
        exact (List.dropLast_append_getLast hne).symm
      have hperm : (ring.map (Prod.mk key)).Perm
          ((key, last) :: ring.dropLast.map (Prod.mk key)) := by
        rw [hring, List.map_append]
        rw [← hring]
        exact List.perm_append_comm
      exact hperm.append_right _
  | none =>
      have hring : ring = [] := List.getLast?_eq_none_iff.mp hlast
      subst hring
      cases hpr : popLeaf right with
      | some found =>
          obtain ⟨leaf, right'⟩ := found
          have hperm := (popLeaf_spec hpr).1
          refine List.Perm.trans (hperm.append_left _) ?_
          exact List.perm_append_comm_assoc _ _ _
      | none =>
          have hright := popLeaf_eq_none.mp hpr
          subst hright
          cases hpl : popLeaf left with
          | some found =>
              obtain ⟨leaf, left'⟩ := found
              have hperm := (popLeaf_spec hpl).1
              simpa [entries, leafEntries] using hperm
          | none =>
              have hleft := popLeaf_eq_none.mp hpl
              subst hleft
              exact List.Perm.refl _

/-- **Taking a member out** leaves the others. -/
theorem entries_unlink {t : BitTrie α} {key : Nat} (hnodup : t.members.Nodup)
    (hmem : (key, x) ∈ t.entries) : t.entries.Perm ((key, x) :: (t.unlink x).entries) := by
  induction t with
  | nil => cases hmem
  | node key' head ring left right ihl ihr =>
      have hsplit : (node key' head ring left right).members
          = head :: (ring ++ (left.members ++ right.members)) := by
        simp [members, entries, Function.comp_def]
      rw [hsplit, List.nodup_cons, List.nodup_append', List.nodup_append'] at hnodup
      obtain ⟨hhead, hring, ⟨hl, hr, hlr⟩, hdis⟩ := hnodup
      simp only [entries, List.mem_cons, List.mem_append, List.mem_map, Prod.mk.injEq] at hmem
      by_cases hx : head = x
      · -- only the head itself is at `x`
        subst hx
        have hkey : key = key' := by
          rcases hmem with ⟨hk, _⟩ | ⟨y, hy, hk, rfl⟩ | hleft | hright
          · exact hk
          · exact hk.symm
          · have hmem := List.mem_append_left right.members (mem_members hleft)
            exact absurd (List.mem_append_right _ hmem) hhead
          · have hmem := List.mem_append_right left.members (mem_members hright)
            exact absurd (List.mem_append_right _ hmem) hhead
        subst hkey
        exact entries_unlink_head key ring left right
      · by_cases hin : x ∈ ring
        · have hkey : key = key' := by
            rcases hmem with ⟨hk, _⟩ | ⟨y, hy, hk, rfl⟩ | hleft | hright
            · exact hk
            · exact hk.symm
            · exact absurd (List.mem_append_left _ (mem_members hleft)) (hdis hin)
            · exact absurd (List.mem_append_right _ (mem_members hright)) (hdis hin)
          subst hkey
          rw [unlink, if_neg hx, if_pos hin]
          have hperm := (List.perm_cons_erase hin).map (Prod.mk key)
          refine List.Perm.trans (.cons _ (hperm.append_right _)) ?_
          exact .swap _ _ _
        · have hout : (key, x) ∈ left.entries ∨ (key, x) ∈ right.entries := by
            rcases hmem with ⟨_, hk⟩ | ⟨y, hy, _, rfl⟩ | hside
            · exact absurd hk.symm hx
            · exact absurd hy hin
            · exact hside
          rw [unlink, if_neg hx, if_neg hin]
          rcases hout with hside | hside
          · have hother : right.unlink x = right := unlink_of_not_mem fun e he hex =>
              hlr (mem_members hside) (hex ▸ mem_members he)
            rw [hother]
            refine List.Perm.trans (.cons _ (.append_left _ (.append_right _ (ihl hl hside)))) ?_
            exact .trans (.cons _ List.perm_middle) (.swap _ _ _)
          · have hother : left.unlink x = left := unlink_of_not_mem fun e he hex =>
              hlr (hex ▸ mem_members he) (mem_members hside)
            rw [hother]
            refine List.Perm.trans (.cons _ (.append_left _ (.append_left _ (ihr hr hside)))) ?_
            simp only [entries]
            rw [← List.append_assoc, ← List.append_assoc]
            exact .trans (.cons _ List.perm_middle) (.swap _ _ _)

theorem Ordered.unlink {w lo : Nat} {t : BitTrie α} (h : Ordered w lo t) :
    Ordered w lo (t.unlink x) := by
  induction t generalizing w lo with
  | nil => exact h
  | node key head ring left right ihl ihr =>
      cases w with
      | zero =>
          obtain ⟨hkey, rfl, rfl⟩ := h
          unfold BitTrie.unlink
          split
          · cases ring.getLast? with
            | some last => exact ⟨hkey, rfl, rfl⟩
            | none => exact ordered_nil _ _
          · split
            · exact ⟨hkey, rfl, rfl⟩
            · exact ⟨hkey, rfl, rfl⟩
      | succ w =>
          obtain ⟨h1, h2, hl, hr⟩ := h
          unfold BitTrie.unlink
          split
          · cases ring.getLast? with
            | some last => exact ⟨h1, h2, hl, hr⟩
            | none =>
                cases hpr : popLeaf right with
                | some found =>
                    obtain ⟨⟨key', head', ring'⟩, right'⟩ := found
                    have hk : lo + 2 ^ w ≤ key' ∧ key' < lo + 2 ^ w + 2 ^ w := popLeaf_key hpr hr
                    have hr' := (popLeaf_spec hpr).2 w _ hr
                    have hpow : 2 ^ (w + 1) = 2 ^ w * 2 := Nat.pow_succ 2 w
                    exact ⟨by omega, by omega, hl, hr'⟩
                | none =>
                    cases hpl : popLeaf left with
                    | some found =>
                        obtain ⟨⟨key', head', ring'⟩, left'⟩ := found
                        have hk : lo ≤ key' ∧ key' < lo + 2 ^ w := popLeaf_key hpl hl
                        have hl' := (popLeaf_spec hpl).2 w _ hl
                        have hpow : 2 ^ (w + 1) = 2 ^ w * 2 := Nat.pow_succ 2 w
                        exact ⟨by omega, by omega, hl', hr⟩
                    | none => exact ordered_nil _ _
          · split
            · exact ⟨h1, h2, hl, hr⟩
            · exact ⟨h1, h2, ihl hl, ihr hr⟩

end Unlink

end BitTrie
