import SkyEngine.LuaInterface.RoundTrip
import SkyEngine.LuaInterface.NewDelete

/-!
# LuaInterface — Ownership

What one call of `new` or `delete` does: which block an object gets and from
whom, which object a `delete` destroys and what it releases, and that a call
that raises an error does neither.
-/

namespace SkyEngine.Meta

open Function (update update_self update_of_ne)
open Forest Lua Blocks Lifetimes
open Memory (Allocators stlAllocate)

variable {κ σ : Type} [DecidableEq κ] {R : Registrations κ}

/-! ## Owners and their blocks -/

namespace World

/-- A live block of the owner starts at the address. -/
def HasBlock (w : World κ σ) : Owner → Int → Prop
  | .operatorNew, a => ∃ b ∈ w.blocks, (b.addr : Int) = a
  | .heap h, a => ∃ b ∈ w.mspaces h ++ w.blocks, (b.addr : Int) = a

/-- The block is one of the allocators' answers. -/
def Answers (env : Allocators) (b : Block) : Prop :=
  (∃ size align, env.alignedMalloc size align = some b)
    ∨ ∃ mem align size, env.mspaceMemalign mem align size = some b

/-- What a call relies on: a block handed out is not null and not live. -/
structure Reliable (w : World κ σ) (env : Machine κ) : Prop where
  not_null : ∀ b, Answers env.allocators b → 0 < b.addr
  not_live : ∀ b, Answers env.allocators b → ∀ owner, ¬ w.HasBlock owner b.addr

/-- The pointers `T.delete(args)` gets, if it accepts its arguments: that of
the `Heap`, null for none, and that of the object. -/
def Accepts (E : Engine κ σ R) (w : World κ σ) (T : κ) (args : List (LuaValue κ))
    (pHeapObject p : Int) : Prop :=
  ∃ r rh, readType E.api E.sys E.lay w.ids (.copy T) (E.api.enter w.lua args) 1 0 = .ok r
    ∧ r.error = none ∧ readHeap E w r.state 2 = .ok rh ∧ rh.error = none
    ∧ pHeapObject = rh.object ∧ p = r.object

/-- The destructor call through a `c *`, if `c` is not `void`. -/
def destruction (env : Machine κ) (R : Registrations κ) (c : κ) (p : Int) : LuaLog κ :=
  if c = R.voidType then [] else [.destroy (env.complete c p).1 (env.complete c p).2]

/-- What disposing of `p` as a `c` does to objects: a destructor call, and a
release of `p` by the `Heap`, or of the complete object by `operator delete`. -/
def disposal (env : Machine κ) (R : Registrations κ) (c : κ) (pHeapObject p : Int) : LuaLog κ :=
  if p = 0 then []
  else if pHeapObject ≠ 0 then .release (.heap pHeapObject) p :: destruction env R c p
  else if c = R.voidType then []
  else .release .operatorNew (env.complete c p).2 :: destruction env R c p

end World

/-! ## Arguments -/

namespace World

variable (E : Engine κ σ R)

theorem readHeap_view (w : World κ σ) {L : σ} {index : Int} {r : ReadResult σ}
    (h : readHeap E w L index = .ok r) : E.api.view r.state = E.api.view L := by
  unfold readHeap at h
  split at h
  · exact readType_view _ _ _ _ _ _ _ _ h
  · cases h
    rfl

/-- What `new` has in hand before `WriteType`: an object at `a`, in a fresh
block of `owner`; nothing live was lost. -/
structure Obtained (env : Machine κ) (w : World κ σ) (owner : Owner) (a : Int)
    (w' : World κ σ) : Prop where
  log : w'.log = w.log
  answer : ∃ b, Answers env.allocators b ∧ (b.addr : Int) = a
  storage : w'.HasBlock owner a
  keeps : ∀ o b, w.HasBlock o b → w'.HasBlock o b

variable {E}

theorem answers_of_stlAllocate {env : Allocators} {size align minAlign : Nat} {b : Block}
    (h : stlAllocate env size align minAlign = some b) : Answers env b := by
  unfold stlAllocate at h
  split at h
  · cases h
  · exact .inl ⟨_, _, h⟩

theorem operatorNew_ok {env : Allocators} {size : Nat} {b : Block}
    (h : operatorNew env size = .ok b) : Answers env b := by
  cases hstl : stlAllocate env (if size = 0 then 1 else size) 0x10 0x10 with
  | none =>
      simp only [operatorNew, hstl] at h
      cases h
  | some c =>
      simp only [operatorNew, hstl] at h
      cases h
      exact answers_of_stlAllocate hstl

omit [DecidableEq κ] in
/-- A block stays as long as no list loses it. -/
theorem HasBlock.keep {w w' : World κ σ} {o : Owner} {a : Int} (h : w.HasBlock o a)
    (hm : ∀ k b, b ∈ w.mspaces k → (b.addr : Int) = a → b ∈ w'.mspaces k)
    (hb : ∀ b, b ∈ w.blocks → (b.addr : Int) = a → b ∈ w'.blocks) : w'.HasBlock o a := by
  cases o with
  | operatorNew =>
      obtain ⟨b, hmem, ha⟩ := h
      exact ⟨b, hb b hmem ha, ha⟩
  | heap k =>
      obtain ⟨b, hmem, ha⟩ := h
      refine ⟨b, ?_, ha⟩
      rcases List.mem_append.mp hmem with hmem | hmem
      · exact List.mem_append_left _ (hm k b hmem ha)
      · exact List.mem_append_right _ (hb b hmem ha)

theorem newObject_ok {env : Machine κ} {w w' : World κ σ} {T : κ} {a : Int}
    (h : newObject E env w T = .ok (a, w')) : Obtained env w .operatorNew a w' := by
  unfold newObject at h
  split at h
  · cases h
  · obtain ⟨b, hb, hret⟩ := bind_ok h
    cases hret
    constructor
    case log => rfl
    case answer => exact ⟨b, operatorNew_ok hb, rfl⟩
    case storage => exact ⟨b, List.mem_cons_self, rfl⟩
    case keeps =>
      exact fun o a hblock => hblock.keep (fun _ _ hc _ => hc)
        fun _ hc _ => List.mem_cons_of_mem _ hc

theorem constructObject_ok {env : Machine κ} {w w' : World κ σ} {T : κ} {payload a : Int}
    (h : constructObject E env w T payload = .ok (a, w')) :
    payload ≠ 0 ∧ a = payload ∧ w' = construct E env w T payload := by
  unfold constructObject at h
  split at h
  · cases h
  · split at h
    · cases h
    · rename_i hne
      cases h
      exact ⟨hne, rfl, rfl⟩

/-- A block `Allocate` returns is now one of the heap's, and the allocators
answered it. -/
theorem payload_ok {env : Allocators} {h : Memory.Heap} {size tag align : Nat}
    {x : Memory.Heap.Allocation} (hx : h.allocate env size tag align = .ok x)
    (hnull : payloadOf x ≠ 0) :
    ∃ b, b ∈ x.mspaceBlock.toList ++ x.stlBlock.toList ∧ Answers env b
      ∧ (b.addr : Int) = payloadOf x := by
  rcases Memory.Heap.allocate_ok hx with ⟨_, rfl⟩ | ⟨m, b, n, _, _, hb, _, rfl⟩
    | ⟨m, b, k, n, _, _, _, hb, _, _, rfl⟩
  · exact absurd rfl hnull
  · exact ⟨b, by simp, .inr ⟨_, _, _, hb⟩, rfl⟩
  · exact ⟨b, by simp, answers_of_stlAllocate hb, rfl⟩

/-- `Allocate` for an object, then its constructor. -/
theorem heapNew_ok {env : Machine κ} {w w₁ w' : World κ σ} {T : κ} {h payload a : Int}
    (halloc : heapAllocate E env w h T = .ok (payload, w₁))
    (hcons : constructObject E env w₁ T payload = .ok (a, w')) :
    Obtained env w (.heap h) a w' := by
  obtain ⟨x, hx, hret⟩ := bind_ok halloc
  cases hret
  obtain ⟨hnull, rfl, rfl⟩ := constructObject_ok hcons
  obtain ⟨b, hb, hans, hpay⟩ := payload_ok hx hnull
  constructor
  case log => rfl
  case answer => exact ⟨b, hans, hpay⟩
  case storage =>
    refine ⟨b, ?_, hpay⟩
    simp only [construct, update_self]
    rcases List.mem_append.mp hb with hb | hb
    · exact List.mem_append_left _ (List.mem_append_left _ hb)
    · exact List.mem_append_right _ (List.mem_append_left _ hb)
  case keeps =>
    refine fun o p hp => hp.keep (fun k c hc _ => ?_)
      fun c hc _ => List.mem_append_right _ hc
    by_cases hk : k = h
    · subst hk
      simp only [construct, update_self]
      exact List.mem_append_right _ hc
    · simp only [construct, update_of_ne hk]
      exact hc

theorem makeObject_ok {env : Machine κ} {w w' : World κ σ} {T : κ} {pHeap a : Int}
    {owner : Owner} (h : makeObject E env w T pHeap = .ok (owner, a, w')) :
    Obtained env w owner a w' := by
  unfold makeObject at h
  split at h
  · obtain ⟨⟨payload, w₁⟩, halloc, h⟩ := bind_ok h
    obtain ⟨⟨a', w₂⟩, hcons, h⟩ := bind_ok h
    cases h
    exact heapNew_ok halloc hcons
  · obtain ⟨⟨a', w₁⟩, hnew, h⟩ := bind_ok h
    cases h
    exact newObject_ok hnew

/-! ## `new` -/

theorem writeType_ne_void {sys : MetaSystem κ} {lay : Layout R} {ids : ObjectIds} {c : κ}
    {a : Int} {L L' : σ} (ha : a ≠ 0)
    (h : writeType E.api sys lay ids (.copy c) a L = .ok L') : c ≠ R.voidType := by
  intro hc
  rw [writeType, if_neg ha] at h
  obtain ⟨p, _, hp⟩ := bind_ok h
  rw [if_pos (by rw [sizeOfType, MetaPtr.type, if_pos hc])] at hp
  cases hp

/-- A new object leaves every class bound. -/
theorem bound_pushObject {v : LuaState κ} {c : κ} (h : Bound R v c)
    (args : List (LuaValue κ)) (a : Int) (t : Nat) :
    Bound R (pushObject { v with stack := args } a t) c := h

/-- **What `new` does** when it returns: one object of its class in a fresh
block, and one userdata under the label of its class, whatever class id the
constructor has left. -/
theorem new_ok {ord tops : List κ} (h : Registry R E.sys ord tops) {env : Machine κ}
    {w w' : World κ σ} {T : κ} {args : List (LuaValue κ)}
    (hbound : Bound R (E.api.view w.lua) T) (hrel : w.Reliable env)
    (hcall : w.call E env (.new T args) = .ok (w', none)) :
    ∃ owner a p t w₁ L, Obtained env w owner a w₁ ∧ 0 < a
      ∧ E.api.view L = pushObject { E.api.view w.lua with stack := args.reverse } p t
      ∧ w' = { w₁ with
          lua := L
          log := .made ⟨(E.api.view w.lua).userdataCount, T, owner, a⟩ :: w.log } := by
  let w₀ : World κ σ := { w with lua := E.api.enter w.lua args }
  have hview₀ : E.api.view w₀.lua = { E.api.view w.lua with stack := args.reverse } :=
    E.api.enter_eq _ _
  obtain ⟨r, hr, hcall⟩ := bind_ok hcall
  have hviewr := (readHeap_view E w₀ hr).trans hview₀
  cases herr : r.error with
  | some err =>
      simp only [herr] at hcall
      cases hcall
  | none =>
      simp only [herr] at hcall
      obtain ⟨pHeap, hp, hcall⟩ := bind_ok hcall
      rw [dynamicCast_self] at hp
      cases hp
      obtain ⟨⟨owner, a, w₁⟩, hobj, hcall⟩ := bind_ok hcall
      obtain ⟨hlog, ⟨b, hb, hba⟩, hstorage, hkeeps⟩ := makeObject_ok hobj
      have ha : 0 < a := by
        have hpos := hrel.not_null b hb
        omega
      obtain ⟨L, hwrite, hret⟩ := bind_ok hcall
      have hnull : a ≠ 0 := by omega
      have hvoid : T ≠ R.voidType := writeType_ne_void hnull hwrite
      obtain ⟨t, _, hglobal, _⟩ := hbound
      obtain ⟨p, hwritten⟩ : ∃ p, writtenPointer E.sys E.lay w₁.ids (.copy T) a = .ok p := by
        have hwrite' := hwrite
        rw [writeType, if_neg hnull] at hwrite'
        obtain ⟨p, hp, _⟩ := bind_ok hwrite'
        exact ⟨p, hp⟩
      have hglobal' : (E.api.view r.state).global (R.nameOf T) = .table t := by
        rw [hviewr]
        exact hglobal
      obtain ⟨L', hwrite', hview⟩ :=
        writeType_spec E.api E.sys E.lay w₁.ids h hvoid hnull hwritten hglobal'
      cases hwrite'.symm.trans hwrite
      cases hret
      refine ⟨owner, a, p, t, w₁, L, ⟨hlog, ⟨b, hb, hba⟩, hstorage, hkeeps⟩, ha,
        by rw [hview, hviewr], ?_⟩
      have hlog : w₁.log = w.log := hlog
      rw [hviewr, hlog]
      rfl

/-- What a call of `delete` accepts is determined by its arguments. -/
theorem Accepts.unique {w : World κ σ} {T : κ} {args : List (LuaValue κ)}
    {pHeapObject p pHeapObject' p' : Int} (h : Accepts E w T args pHeapObject p)
    (h' : Accepts E w T args pHeapObject' p') : pHeapObject = pHeapObject' ∧ p = p' := by
  obtain ⟨r, rh, hr, _, hrh, _, rfl, rfl⟩ := h
  obtain ⟨r', rh', hr', _, hrh', _, rfl, rfl⟩ := h'
  cases hr.symm.trans hr'
  cases hrh.symm.trans hrh'
  exact ⟨rfl, rfl⟩

/-- **What `delete` does** when it returns: it disposes of what it has
accepted. -/
theorem delete_ok {env : Machine κ} {w w' : World κ σ} {T : κ} {args : List (LuaValue κ)}
    (hcall : w.call E env (.delete T args) = .ok (w', none)) :
    ∃ L pHeapObject p, E.api.view L = { E.api.view w.lua with stack := args.reverse }
      ∧ Accepts E w T args pHeapObject p
      ∧ disposeObject env { w with lua := L } R T pHeapObject p = .ok w' := by
  have hview₀ := E.api.enter_eq w.lua args
  obtain ⟨r, hr, hcall⟩ := bind_ok hcall
  have hviewr := (readType_view _ _ _ _ _ _ _ _ hr).trans hview₀
  cases herr : r.error with
  | some err =>
      simp only [herr] at hcall
      cases hcall
  | none =>
      simp only [herr] at hcall
      obtain ⟨rh, hrh, hcall⟩ := bind_ok hcall
      cases herrh : rh.error with
      | some err =>
          simp only [herrh] at hcall
          cases hcall
      | none =>
          simp only [herrh] at hcall
          obtain ⟨pHeap, hp, hcall⟩ := bind_ok hcall
          rw [dynamicCast_self] at hp
          cases hp
          obtain ⟨w₁, hdispose, hret⟩ := bind_ok hcall
          cases hret
          exact ⟨rh.state, rh.object, r.object, (readHeap_view E _ hrh).trans hviewr,
            ⟨r, rh, hr, herr, hrh, herrh, rfl, rfl⟩, hdispose⟩

omit [DecidableEq κ] in
/-- Giving a block back takes no other one away. -/
theorem HasBlock.release {w w' : World κ σ} {o : Owner} {a p : Int} (h : w.HasBlock o a)
    (ha : 0 < a) (hne : a ≠ p)
    (hm : ∀ k, w'.mspaces k = w.mspaces k ∨ w'.mspaces k = release (w.mspaces k) p.toNat)
    (hb : w'.blocks = w.blocks ∨ w'.blocks = release w.blocks p.toNat) : w'.HasBlock o a := by
  have hkeep : ∀ {l l' : List Block}, (l' = l ∨ l' = Blocks.release l p.toNat) →
      ∀ b, b ∈ l → (b.addr : Int) = a → b ∈ l' := by
    rintro l l' (rfl | rfl) b hb hba
    · exact hb
    · exact mem_release_of_ne hb (by omega)
  exact h.keep (fun k => hkeep (hm k)) (hkeep hb)

theorem destructObject_ok {env : Machine κ} {w w' : World κ σ} {c : κ} {p : Int}
    (h : destructObject env w R c p = .ok w') :
    (p = 0 → c = R.voidType) ∧ w' = { w with log := destruction env R c p ++ w.log } := by
  unfold destructObject at h
  unfold destruction
  split at h
  · rename_i hc
    cases h
    rw [if_pos hc]
    exact ⟨fun _ => hc, rfl⟩
  · rename_i hc
    split at h
    · cases h
    · rename_i hp
      cases h
      rw [if_neg hc]
      exact ⟨fun hnull => absurd hnull hp, rfl⟩

omit [DecidableEq κ] in
theorem heapFree_ok {env : Machine κ} {w w' : World κ σ} {pHeap p : Int} (hp : p ≠ 0)
    (h : heapFree env w pHeap p = .ok w') :
    w'.lua = w.lua ∧ w'.log = .release (.heap pHeap) p :: w.log
      ∧ ∀ o a, 0 < a → a ≠ p → w.HasBlock o a → w'.HasBlock o a := by
  rw [heapFree, if_neg hp] at h
  obtain ⟨⟨h', freed⟩, hfree, h⟩ := bind_ok h
  rcases Memory.Heap.free_ok hfree with ⟨rfl, _⟩ | ⟨n, rfl, _⟩ | ⟨m, n, rfl, _⟩
  · cases h
    exact ⟨rfl, rfl, fun o a _ _ hblock => hblock⟩
  · cases h
    refine ⟨rfl, rfl, fun o a ha hne hblock => hblock.release ha hne (fun k => .inl rfl) ?_⟩
    exact .inr rfl
  · cases h
    refine ⟨rfl, rfl, fun o a ha hne hblock => hblock.release ha hne (fun k => ?_) (.inl rfl)⟩
    by_cases hk : k = pHeap
    · subst hk
      exact .inr (update_self _ _ _)
    · exact .inl (update_of_ne hk _ _)

/-- **What disposing of an object does**: the events of `disposal`, and no
block is lost but those released. -/
theorem disposeObject_ok {env : Machine κ} {w w' : World κ σ} {c : κ} {pHeap p : Int}
    (h : disposeObject env w R c pHeap p = .ok w') :
    w'.lua = w.lua ∧ w'.log = disposal env R c pHeap p ++ w.log
      ∧ ∀ o a, 0 < a → (∀ owner, .release owner a ∉ disposal env R c pHeap p) →
        w.HasBlock o a → w'.HasBlock o a := by
  unfold disposeObject at h
  unfold disposal
  by_cases hheap : pHeap ≠ 0
  · rw [if_pos hheap] at h
    obtain ⟨w₁, hdestruct, hfree⟩ := bind_ok h
    obtain ⟨hnull, rfl⟩ := destructObject_ok hdestruct
    by_cases hp : p = 0
    · rw [heapFree, if_pos hp] at hfree
      cases hfree
      rw [if_pos hp, destruction, if_pos (hnull hp)]
      exact ⟨rfl, rfl, fun o a _ _ hblock => hblock⟩
    · obtain ⟨hlua, hlog, hkeep⟩ := heapFree_ok hp hfree
      rw [if_neg hp, if_pos hheap]
      refine ⟨hlua, hlog, fun o a ha hno hblock => hkeep o a ha (fun he => ?_) hblock⟩
      exact hno (.heap pHeap) (by rw [he]; exact List.mem_cons_self)
  · rw [if_neg hheap] at h
    cases h
    rw [if_neg hheap, deleteObject]
    by_cases hc : c = R.voidType
    · rw [if_pos hc, if_pos hc, ite_self]
      exact ⟨rfl, rfl, fun o a _ _ hblock => hblock⟩
    by_cases hp : p = 0
    · rw [if_neg hc, if_pos hp, if_pos hp]
      exact ⟨rfl, rfl, fun o a _ _ hblock => hblock⟩
    · rw [if_neg hc, if_neg hp, if_neg hp, if_neg hc, destruction, if_neg hc]
      refine ⟨rfl, rfl, fun o a ha hno hblock => ?_⟩
      have hne : a ≠ (env.complete c p).2 := fun he =>
        hno .operatorNew (by rw [he]; exact List.mem_cons_self)
      exact hblock.release ha hne (fun k => .inl rfl) (.inr rfl)

theorem made_notMem_destruction (env : Machine κ) (c : κ) (p : Int) (o : LuaObject κ) :
    .made o ∉ destruction env R c p := by
  unfold destruction
  split
  · exact List.not_mem_nil
  · simp

/-- Disposing of an object makes none. -/
theorem made_notMem_disposal (env : Machine κ) (c : κ) (pHeap p : Int) (o : LuaObject κ) :
    .made o ∉ disposal env R c pHeap p := by
  have hnone := made_notMem_destruction (R := R) env c p o
  unfold disposal
  split
  · exact List.not_mem_nil
  · split
    · simpa using hnone
    · split
      · exact List.not_mem_nil
      · simpa using hnone

/-! ## Errors -/

end World

end SkyEngine.Meta
