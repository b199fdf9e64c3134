import Mathlib.Data.List.Basic
import Mathlib.Data.List.Nodup
import Mathlib.Data.List.Perm.Subperm

/-!
# Lib — Chain

Linked chains through cells that are only ever added: cell `i` carries the
link `links[i]`, and a new cell is linked to cells that are there already.
The chain behind a head then never changes, whatever is added later, and
a loop along it ends.
-/

namespace Chain

variable {ε σ : Type*}

/-- Following the links from a head visits exactly these cells. -/
inductive Linked (links : List (Option Nat)) : Option Nat → List Nat → Prop
  | nil : Linked links none []
  | cons {p : Nat} {next : Option Nat} {ps : List Nat} : links[p]? = some next →
      Linked links next ps → Linked links (some p) (p :: ps)

/-- A head that leads to a cell, or nowhere. -/
def Valid (links : List (Option Nat)) (head : Option Nat) : Prop :=
  ∀ p ∈ head, p < links.length

/-- Every cell is linked to an older one. -/
def Aged (links : List (Option Nat)) : Prop :=
  ∀ (i j : Nat), links[i]? = some (some j) → j < i

theorem aged_nil : Aged [] := by
  intro i j h
  simp at h

theorem valid_none (links : List (Option Nat)) : Valid links none := by
  intro p hp
  cases hp

theorem Valid.append {links : List (Option Nat)} {head : Option Nat} (h : Valid links head)
    (more : List (Option Nat)) : Valid (links ++ more) head := by
  intro p hp
  have := h p hp
  simp only [List.length_append]
  omega

/-- The newest cell is a valid head. -/
theorem valid_new (links : List (Option Nat)) (head : Option Nat) :
    Valid (links ++ [head]) (some links.length) := by
  intro p hp
  cases hp
  simp

/-- Adding a cell that is linked to what is there. -/
theorem Aged.push {links : List (Option Nat)} {head : Option Nat} (h : Aged links)
    (hhead : Valid links head) : Aged (links ++ [head]) := by
  intro i j hij
  rcases Nat.lt_or_ge i links.length with hi | hi
  · rw [List.getElem?_append_left hi] at hij
    exact h i j hij
  · rw [List.getElem?_append_right hi] at hij
    obtain ⟨hlt, hget⟩ := List.getElem?_eq_some_iff.mp hij
    have hi0 : i - links.length = 0 := by simpa using hlt
    simp only [hi0, List.getElem_cons_zero] at hget
    have := hhead j hget
    omega

/-- The link of a cell is a valid head. -/
theorem Aged.valid_link {links : List (Option Nat)} (h : Aged links) {p : Nat}
    {next : Option Nat} (hp : links[p]? = some next) : Valid links next := by
  intro q hq
  cases hq
  have hlt := (List.getElem?_eq_some_iff.mp hp).1
  have := h p q hp
  omega

/-! ## The chain behind a head -/

theorem Linked.unique {links : List (Option Nat)} {head : Option Nat} {ps qs : List Nat}
    (hp : Linked links head ps) (hq : Linked links head qs) : ps = qs := by
  induction hp generalizing qs with
  | nil =>
      cases hq
      rfl
  | cons hlink _ ih =>
      cases hq with
      | cons hlink' hrest =>
          rw [hlink] at hlink'
          cases hlink'
          rw [ih hrest]

/-- More cells leave a chain as it is. -/
theorem Linked.append {links : List (Option Nat)} {head : Option Nat} {ps : List Nat}
    (h : Linked links head ps) (more : List (Option Nat)) : Linked (links ++ more) head ps := by
  induction h with
  | nil => exact .nil
  | cons hlink _ ih =>
      have hlt := (List.getElem?_eq_some_iff.mp hlink).1
      exact .cons (by rw [List.getElem?_append_left hlt, hlink]) ih

/-- A new cell stands in front of the chain it is linked to. -/
theorem Linked.push {links : List (Option Nat)} {head : Option Nat} {ps : List Nat}
    (h : Linked links head ps) :
    Linked (links ++ [head]) (some links.length) (links.length :: ps) :=
  .cons (by simp) (h.append [head])

/-- Along a chain the cells get older. -/
theorem Linked.pairwise {links : List (Option Nat)} (haged : Aged links) {head : Option Nat}
    {ps : List Nat} (h : Linked links head ps) : ps.Pairwise (· > ·) := by
  induction h with
  | nil => exact .nil
  | @cons p next ps hlink hrest ih =>
      refine List.pairwise_cons.mpr ⟨?_, ih⟩
      cases hrest with
      | nil => simp
      | @cons q _ qs _ _ =>
          intro r hr
          have hq := haged p q hlink
          rcases List.mem_cons.mp hr with rfl | hr
          · exact hq
          · have := (List.pairwise_cons.mp ih).1 r hr
            omega

theorem Linked.nodup {links : List (Option Nat)} (haged : Aged links) {head : Option Nat}
    {ps : List Nat} (h : Linked links head ps) : ps.Nodup :=
  (h.pairwise haged).imp fun hgt => Nat.ne_of_gt hgt

theorem Linked.mem_lt {links : List (Option Nat)} {head : Option Nat} {ps : List Nat}
    (h : Linked links head ps) {p : Nat} (hp : p ∈ ps) : p < links.length := by
  induction h with
  | nil => cases hp
  | cons hlink _ ih =>
      rcases List.mem_cons.mp hp with rfl | hp
      · exact (List.getElem?_eq_some_iff.mp hlink).1
      · exact ih hp

theorem Linked.valid {links : List (Option Nat)} {head : Option Nat} {ps : List Nat}
    (h : Linked links head ps) : Valid links head := by
  intro p hp
  cases hp
  cases h with
  | cons hlink _ => exact (List.getElem?_eq_some_iff.mp hlink).1

/-- A chain has at most as many cells as there are. -/
theorem Linked.length_le {links : List (Option Nat)} (haged : Aged links) {head : Option Nat}
    {ps : List Nat} (h : Linked links head ps) : ps.length ≤ links.length := by
  have hsub : ps ⊆ List.range links.length :=
    fun _ hp => List.mem_range.mpr (h.mem_lt hp)
  simpa using (List.subperm_of_subset (h.nodup haged) hsub).length_le

/-- The first `n` cells behind a head. -/
def follow (links : List (Option Nat)) : Nat → Option Nat → List Nat
  | 0, _ => []
  | _ + 1, none => []
  | n + 1, some p => p :: follow links n (links[p]?).join

/-- The cells behind a head, newest first. -/
def chain (links : List (Option Nat)) (head : Option Nat) : List Nat :=
  follow links links.length head

theorem linked_follow {links : List (Option Nat)} (haged : Aged links) {n : Nat}
    {head : Option Nat} (hhead : ∀ p ∈ head, p < n) (hn : n ≤ links.length) :
    Linked links head (follow links n head) := by
  induction n generalizing head with
  | zero =>
      cases head with
      | none => exact .nil
      | some p => exact absurd (hhead p rfl) (Nat.not_lt_zero p)
  | succ n ih =>
      cases head with
      | none => exact .nil
      | some p =>
          have hp := hhead p rfl
          have hlink : links[p]? = some links[p] := List.getElem?_eq_getElem (by omega)
          refine .cons hlink ?_
          rw [hlink]
          -- the next cell is older than `p`, so `n` steps are enough for it
          refine ih (fun q hq => ?_) (by omega)
          have := haged p q (by rw [hlink]; exact congrArg some hq)
          omega

theorem Aged.linked {links : List (Option Nat)} (haged : Aged links) {head : Option Nat}
    (hhead : Valid links head) : Linked links head (chain links head) :=
  linked_follow haged hhead (Nat.le_refl _)

@[simp] theorem chain_none (links : List (Option Nat)) : chain links none = [] := by
  unfold chain
  cases links.length <;> rfl

theorem Linked.chain_eq {links : List (Option Nat)} (haged : Aged links) {head : Option Nat}
    {ps : List Nat} (h : Linked links head ps) : chain links head = ps := by
  exact Linked.unique (haged.linked h.valid) h

theorem chain_push {links : List (Option Nat)} (haged : Aged links) {cell head : Option Nat}
    (hcell : Valid links cell) (hhead : Valid links head) :
    chain (links ++ [cell]) head = chain links head :=
  ((haged.linked hhead).append [cell]).chain_eq (haged.push hcell)

theorem chain_new {links : List (Option Nat)} (haged : Aged links) {cell : Option Nat}
    (hcell : Valid links cell) :
    chain (links ++ [cell]) (some links.length) = links.length :: chain links cell :=
  (haged.linked hcell).push.chain_eq (haged.push hcell)

/-- The chain of a cell is the cell and what it is linked to. -/
theorem chain_some {links : List (Option Nat)} (haged : Aged links) {p : Nat}
    {next : Option Nat} (hp : links[p]? = some next) :
    chain links (some p) = p :: chain links next :=
  (Linked.cons hp (haged.linked (haged.valid_link hp))).chain_eq haged

/-! ## Loops along a chain -/

/-- `for (it = head; it; it = it->prev) body(it)`: the link is read after
the body has run. `stuck` and `dangling` are the two ways the loop itself
can fail. -/
def forEach (stuck dangling : ε) (links : σ → List (Option Nat))
    (body : Nat → σ → Except ε σ) : Nat → Option Nat → σ → Except ε σ
  | _, none, s => .ok s
  | 0, some _, _ => .error stuck
  | fuel + 1, some p, s =>
      match body p s with
      | .error e => .error e
      | .ok s =>
          match (links s)[p]? with
          | none => .error dangling
          | some next => forEach stuck dangling links body fuel next s

/-- **Loop rule**: where the body only adds cells, the loop is the fold of
its body over the chain that was there when it began. -/
theorem forEach_eq_foldlM {stuck dangling : ε} {links : σ → List (Option Nat)}
    {body : Nat → σ → Except ε σ}
    (hbody : ∀ p s s', body p s = .ok s' → links s <+: links s') {s : σ} {head : Option Nat}
    {ps : List Nat} (h : Linked (links s) head ps) {fuel : Nat} (hfuel : ps.length ≤ fuel) :
    forEach stuck dangling links body fuel head s = ps.foldlM (fun s p => body p s) s := by
  induction ps generalizing s head fuel with
  | nil =>
      cases h
      cases fuel <;> rfl
  | cons p ps ih =>
      cases h with
      | @cons _ next _ hlink hrest =>
          obtain ⟨fuel, rfl⟩ : ∃ n, fuel = n + 1 := ⟨fuel - 1, by simp at hfuel; omega⟩
          rw [forEach, List.foldlM_cons]
          cases hb : body p s with
          | error e => rfl
          | ok s' =>
              obtain ⟨more, hmore⟩ := hbody p s s' hb
              have hlt := (List.getElem?_eq_some_iff.mp hlink).1
              have hlink' : (links s')[p]? = some next := by
                rw [← hmore, List.getElem?_append_left hlt, hlink]
              simp only [hlink']
              refine ih ?_ (by simpa using hfuel)
              rw [← hmore]
              exact hrest.append more

/-- **A loop never leaves a ring**, however long it runs. -/
theorem forEach_ring {stuck dangling : ε} {links : σ → List (Option Nat)}
    {body : Nat → σ → Except ε σ} {R : Nat → σ → Prop}
    (hring : ∀ p s, R p s →
      ∃ s' q, body p s = .ok s' ∧ (links s')[p]? = some (some q) ∧ R q s')
    {p : Nat} {s : σ} (h : R p s) (fuel : Nat) :
    forEach stuck dangling links body fuel (some p) s = .error stuck := by
  induction fuel generalizing p s with
  | zero => rfl
  | succ fuel ih =>
      obtain ⟨s', q, hbody, hlink, hnext⟩ := hring p s h
      rw [forEach, hbody]
      simp only [hlink]
      exact ih hnext

end Chain
