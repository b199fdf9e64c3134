import SkyEngine.Meta.Descriptors
import SkyEngine.Meta.Types

/-!
# Meta — DescriptorRuns

What a program sees of the chains after any run of constructors and
setters: `GetMetaData` returns, and its answer is the newest matching node
of its object's list; what is registered on one object is never seen
through another, copies included; and, unless links have been set by hand,
the copy loops of `Initialize` visit every listed object once, newest first.
-/

namespace SkyEngine.MetaObjects

variable {τ : Type}

/-! ## `GetMetaData` -/

theorem newest_cons {entries : List Entry} {key : String} {p : Nat} {ps : List Nat} {d : Entry}
    (hp : entries[p]? = some d) :
    View.newest entries key (p :: ps)
      = if d.key = key then d.value else View.newest entries key ps := by
  simp only [View.newest, List.filterMap_cons, hp, List.find?_cons]
  by_cases hk : d.key = key
  · simp [hk]
  · rw [if_neg hk, beq_eq_false_iff_ne.mpr hk]

/-- The loop ends at the first node that carries the key, or at the end. -/
theorem findData_eq {s : Store τ} {key : String} {head : Option Nat} {ps : List Nat}
    (h : Chain.Linked s.dataLinks head ps) {fuel : Nat} (hfuel : ps.length ≤ fuel) :
    Store.findData s.data key fuel head = .ok (View.newest s.view.entries key ps) := by
  induction h generalizing fuel with
  | nil => cases fuel <;> rfl
  | @cons p next ps hlink _ ih =>
      obtain ⟨fuel, rfl⟩ : ∃ n, fuel = n + 1 := ⟨fuel - 1, by simp at hfuel; omega⟩
      simp only [Store.dataLinks, List.getElem?_map, Option.map_eq_some_iff] at hlink
      obtain ⟨d, hd, rfl⟩ := hlink
      have hentry : s.view.entries[p]? = some (s.entryOf d) := by
        rw [Store.view_entries_get, hd, Option.map_some]
      rw [newest_cons hentry]
      simp only [Store.findData, hd]
      split
      · rename_i hkey
        simp [Store.entryOf, hkey]
      · rename_i hkey
        rw [if_neg (by simpa [Store.entryOf] using hkey)]
        exact ih (by simpa using hfuel)

/-- With fuel for every node there is, `GetMetaData` answers from the list. -/
theorem Store.Sound.getMetaData_eq {s : Store τ} (h : s.Sound) (object : Nat) (key : String) :
    s.getMetaData s.data.length object key = s.view.getMetaData object key := by
  rw [Store.getMetaData, View.getMetaData, Store.view_items_get]
  cases ho : s.objects[object]? with
  | none => rfl
  | some o =>
      have hchain := h.data_aged.linked (h.fields_valid o (List.mem_of_getElem? ho))
      exact findData_eq hchain (by simpa using hchain.length_le h.data_aged)

section Runs

variable [DecidableEq τ]

/-- **`GetMetaData` over pointers is `GetMetaData` over lists**, after any
run of constructors and setters. -/
theorem getMetaData_run (cs : List (Call τ)) (object : Nat) (key : String) :
    (do let s ← Store.run {} cs; s.getMetaData s.data.length object key)
      = (do let v ← View.run {} cs; v.getMetaData object key) := by
  have hview := view_run (Store.sound_empty (τ := τ)) cs
  rw [show ({} : Store τ).view = {} from rfl] at hview
  rw [← hview]
  cases hs : Store.run {} cs with
  | error e => rfl
  | ok s => exact (Store.sound_empty.run hs).getMetaData_eq object key

end Runs

/-! ## What one object answers does not depend on the others -/

/-- The call neither attaches to the object nor rewrites one of the nodes. -/
def Call.Spares (object : Nat) (nodes : List Nat) : Call τ → Prop
  | .metaData target _ _ => target ≠ object
  | .setFields o _ => o ≠ object
  | .setKey node _ => node ∉ nodes
  | .setValue node _ => node ∉ nodes
  | _ => True

/-- The object owns these nodes, and they carry these texts. -/
def View.Answers (v : View τ) (object : Nat) (nodes : List Nat) (texts : Nat → Option Entry) :
    Prop :=
  (∃ o, v.items[object]? = some o ∧ o.attached = nodes)
    ∧ ∀ p ∈ nodes, p < v.entries.length ∧ v.entries[p]? = texts p

theorem View.Answers.getMetaData {v : View τ} {object : Nat} {nodes : List Nat}
    {texts : Nat → Option Entry} (h : v.Answers object nodes texts) (key : String) :
    v.getMetaData object key
      = .ok (((nodes.filterMap texts).find? (·.key == key)).bind (·.value)) := by
  obtain ⟨⟨o, ho, hnodes⟩, htexts⟩ := h
  subst hnodes
  have hsame : o.attached.filterMap (v.entries[·]?) = o.attached.filterMap texts :=
    List.filterMap_congr fun p hp => (htexts p hp).2
  simp only [View.getMetaData, ho, View.newest, hsame]

theorem getElem?_append_some {α : Type} {l more : List α} {p : Nat} {a : α}
    (h : l[p]? = some a) : (l ++ more)[p]? = some a := by
  rw [List.getElem?_append_left (List.getElem?_eq_some_iff.mp h).1, h]

theorem View.Answers.call [DecidableEq τ] {v v' : View τ} {object : Nat} {nodes : List Nat}
    {texts : Nat → Option Entry} (h : v.Answers object nodes texts) {c : Call τ}
    (hc : v.call c = .ok v') (hspare : c.Spares object nodes) :
    v'.Answers object nodes texts := by
  obtain ⟨⟨o, ho, hnodes⟩, htexts⟩ := h
  have hpush : ∀ d : Entry, ∀ p ∈ nodes, p < (v.entries ++ [d]).length
      ∧ (v.entries ++ [d])[p]? = texts p := by
    intro d p hp
    obtain ⟨hlt, heq⟩ := htexts p hp
    rw [List.getElem?_append_left hlt]
    exact ⟨by simp; omega, heq⟩
  have hset : ∀ node, node ∉ nodes → ∀ d : Entry, ∀ p ∈ nodes,
      p < (v.entries.set node d).length ∧ (v.entries.set node d)[p]? = texts p := by
    intro node hnode d p hp
    obtain ⟨hlt, heq⟩ := htexts p hp
    have hne : node ≠ p := fun he => hnode (he ▸ hp)
    rw [List.getElem?_set_ne hne]
    exact ⟨by simpa using hlt, heq⟩
  cases c with
  | metaObject _ _ | metaObjectNolist _ _ =>
      cases hc
      exact ⟨⟨o, getElem?_append_some ho, hnodes⟩, htexts⟩
  | copyMetaObject src =>
      simp only [View.call] at hc
      split at hc
      · cases hc
      · cases hc
        exact ⟨⟨o, getElem?_append_some ho, hnodes⟩, htexts⟩
  | metaData target key value =>
      simp only [View.call] at hc
      split at hc
      · cases hc
      · cases hc
        exact ⟨⟨o, by rw [List.getElem?_set_ne hspare, ho], hnodes⟩, hpush _⟩
  | copyMetaData src =>
      simp only [View.call] at hc
      split at hc
      · cases hc
      · cases hc
        exact ⟨⟨o, ho, hnodes⟩, hpush _⟩
  | setKey node _ | setValue node _ =>
      simp only [View.call] at hc
      split at hc
      · cases hc
      · cases hc
        exact ⟨⟨o, ho, hnodes⟩, hset node hspare _⟩
  | setName target name =>
      simp only [View.call] at hc
      split at hc
      · cases hc
      · rename_i o₂ ho₂
        cases hc
        -- renaming the object itself leaves its nodes alone
        by_cases hne : target = object
        · subst hne
          rw [ho] at ho₂
          cases ho₂
          have hlt := (List.getElem?_eq_some_iff.mp ho).1
          exact ⟨⟨{ o with name := name }, by simp [hlt], hnodes⟩, htexts⟩
        · exact ⟨⟨o, by rw [List.getElem?_set_ne hne, ho], hnodes⟩, htexts⟩
  | setPrev target p =>
      simp only [View.call] at hc
      split at hc
      · cases hc
      · split at hc
        · cases hc
          exact ⟨⟨o, ho, hnodes⟩, htexts⟩
        · cases hc
  | setFields target p =>
      simp only [View.call] at hc
      split at hc
      · cases hc
      · split at hc
        · cases hc
          exact ⟨⟨o, by rw [List.getElem?_set_ne hspare, ho], hnodes⟩, htexts⟩
        · cases hc
  | setList kind p =>
      simp only [View.call] at hc
      split at hc
      · cases hc
        exact ⟨⟨o, ho, hnodes⟩, htexts⟩
      · cases hc

theorem View.Answers.run [DecidableEq τ] {v v' : View τ} {object : Nat} {nodes : List Nat}
    {texts : Nat → Option Entry} (h : v.Answers object nodes texts) {cs : List (Call τ)}
    (hrun : v.run cs = .ok v') (hspare : ∀ c ∈ cs, c.Spares object nodes) :
    v'.Answers object nodes texts := by
  induction cs generalizing v with
  | nil =>
      cases hrun
      exact h
  | cons c cs ih =>
      rw [View.run, List.foldlM_cons] at hrun
      obtain ⟨v₁, hcall, hrest⟩ := bind_ok hrun
      exact ih (h.call hcall (hspare c List.mem_cons_self)) hrest
        fun c' hc' => hspare c' (List.mem_cons_of_mem c hc')

/-- The nodes an object's field chain runs through. -/
def Store.nodesOf (s : Store τ) (object : Nat) : List Nat :=
  match s.objects[object]? with
  | none => []
  | some o => Chain.chain s.dataLinks o.fields

theorem Store.Sound.answers {s : Store τ} (h : s.Sound) {object : Nat} {o : MetaObject τ}
    (ho : s.objects[object]? = some o) :
    s.view.Answers object (s.nodesOf object) (s.view.entries[·]?) := by
  refine ⟨⟨s.itemOf o, by rw [Store.view_items_get, ho, Option.map_some], ?_⟩, ?_⟩
  · simp only [Store.nodesOf, ho, Store.itemOf]
  · intro p hp
    simp only [Store.nodesOf, ho] at hp
    have hchain := h.data_aged.linked (h.fields_valid o (List.mem_of_getElem? ho))
    exact ⟨by simpa using hchain.mem_lt hp, rfl⟩

section Copies

variable [DecidableEq τ]

/-- **A copy and its original go separate ways**: either keeps answering
what the original answered when it was copied, whatever is registered on
the other or on anything else afterwards. -/
theorem copy_answers {cs₁ cs₂ : List (Call τ)} {s₁ s₂ : Store τ} {src object : Nat}
    (h₁ : Store.run {} cs₁ = .ok s₁) (h₂ : s₁.run (.copyMetaObject src :: cs₂) = .ok s₂)
    (hobject : object = src ∨ object = s₁.objects.length)
    (hspare : ∀ c ∈ cs₂, c.Spares object (s₁.nodesOf src)) (key : String) :
    s₂.getMetaData s₂.data.length object key = s₁.getMetaData s₁.data.length src key := by
  have hs₁ := Store.sound_empty.run h₁
  rw [(hs₁.run h₂).getMetaData_eq, hs₁.getMetaData_eq]
  have hrun := view_run hs₁ (.copyMetaObject src :: cs₂)
  rw [h₂, View.run, List.foldlM_cons] at hrun
  obtain ⟨v, hcopy, hrest⟩ := bind_ok hrun.symm
  cases hsrc : s₁.objects[src]? with
  | none =>
      rw [← view_copyMetaObject, Store.copyMetaObject, hsrc] at hcopy
      cases hcopy
  | some o =>
      have hnow := hs₁.answers hsrc
      have hcopied : v.Answers object (s₁.nodesOf src) (s₁.view.entries[·]?) := by
        rcases hobject with rfl | rfl
        · exact hnow.call hcopy trivial
        · obtain ⟨⟨item, hitem, hnodes⟩, htexts⟩ := hnow
          simp only [View.call, hitem] at hcopy
          cases hcopy
          refine ⟨⟨item, ?_, hnodes⟩, htexts⟩
          rw [← s₁.view_items_length, List.getElem?_append_right (Nat.le_refl _), Nat.sub_self]
          rfl
      rw [(hcopied.run hrest hspare).getMetaData key, hnow.getMetaData key]

end Copies

/-- A class with two descriptions, copied, and described anew. -/
theorem copy_answers_sample :
    ∃ s₁ s₂ : Store Unit,
      Store.run {} [.metaObject () "MetaTestBase",
        .metaData 0 "Tool_Description" (some "A reflected test class"),
        .metaData 0 "ClearMemory" (some "ZERO")] = .ok s₁
      ∧ s₁.run [.copyMetaObject 0, .metaData 0 "ClearMemory" (some "NONE")] = .ok s₂
      ∧ s₂.getMetaData s₂.data.length 1 "ClearMemory"
        = s₁.getMetaData s₁.data.length 0 "ClearMemory" := by
  obtain ⟨s₁, h₁, hlen⟩ : ∃ s₁ : Store Unit, Store.run {} [.metaObject () "MetaTestBase",
      .metaData 0 "Tool_Description" (some "A reflected test class"),
      .metaData 0 "ClearMemory" (some "ZERO")] = .ok s₁ ∧ s₁.objects.length = 1 :=
    ⟨_, rfl, rfl⟩
  obtain ⟨s₂, h₂⟩ : ∃ s₂, s₁.run [.copyMetaObject 0,
      .metaData 0 "ClearMemory" (some "NONE")] = .ok s₂ := by
    cases h₁
    exact ⟨_, rfl⟩
  have hspare : ∀ c ∈ [Call.metaData (τ := Unit) 0 "ClearMemory" (some "NONE")],
      c.Spares s₁.objects.length (s₁.nodesOf 0) := by
    intro c hc
    cases List.mem_singleton.mp hc
    rw [hlen]
    exact Nat.zero_ne_one
  have hsame := copy_answers h₁ h₂ (.inr rfl) hspare "ClearMemory"
  rw [hlen] at hsame
  exact ⟨s₁, s₂, h₁, h₂, hsame⟩

/-! ## The copy loops -/

/-- One turn adds a copy and nothing else. -/
theorem copyListed_eq {s : Store τ} {it : Nat} {o : MetaObject τ} (ho : s.objects[it]? = some o) :
    Store.copyListed it s = .ok { s with objects := s.objects ++ [o] } := by
  simp only [Store.copyListed, ho, Store.copyMetaObject, bind, Except.bind, Store.setName,
    List.getElem?_concat_length]
  simp

theorem copyListed_grows {it : Nat} {s s' : Store τ} (h : Store.copyListed it s = .ok s') :
    s.objectLinks <+: s'.objectLinks := by
  cases ho : s.objects[it]? with
  | none =>
      simp only [Store.copyListed, ho] at h
      cases h
  | some o =>
      rw [copyListed_eq ho] at h
      cases h
      exact ⟨[o.prev], by simp [Store.objectLinks]⟩

theorem foldlM_copyListed {s : Store τ} {ps : List Nat} (hps : ∀ p ∈ ps, p < s.objects.length) :
    ps.foldlM (fun s p => Store.copyListed p s) s
      = .ok { s with objects := s.objects ++ ps.filterMap (s.objects[·]?) } := by
  -- the objects to be copied are among those there were, however many copies there are
  suffices ∀ copies : List (MetaObject τ),
      ps.foldlM (fun s p => Store.copyListed p s) { s with objects := s.objects ++ copies }
        = .ok { s with objects := s.objects ++ (copies ++ ps.filterMap (s.objects[·]?)) } by
    simpa using this []
  intro copies
  induction ps generalizing copies with
  | nil => simp; rfl
  | cons p ps ih =>
      obtain ⟨o, hp⟩ : ∃ o, s.objects[p]? = some o :=
        ⟨_, List.getElem?_eq_getElem (hps p List.mem_cons_self)⟩
      have hcopy := copyListed_eq (s := { s with objects := s.objects ++ copies })
        (getElem?_append_some hp)
      rw [List.foldlM_cons, hcopy]
      have hrest := ih (fun q hq => hps q (List.mem_cons_of_mem p hq)) (copies ++ [o])
      simpa [hp, List.append_assoc, bind, Except.bind] using hrest

/-- The objects are linked to older ones, and these links lead from each
`m_List()` through these objects. -/
structure Store.Lists (s : Store τ) (listed : τ → List Nat) : Prop where
  aged : Chain.Aged s.objectLinks
  linked : ∀ t, Chain.Linked s.objectLinks (s.list t) (listed t)

/-- The loop copies the objects its list leads to, in list order. -/
theorem Store.Lists.copyLoop_eq {s : Store τ} {listed : τ → List Nat} (h : s.Lists listed)
    (t : τ) : s.copyLoop s.objects.length t = .ok { s with
      objects := s.objects ++ (listed t).filterMap (s.objects[·]?) } := by
  have hchain := h.linked t
  have hfuel := hchain.length_le h.aged
  rw [Store.length_objectLinks] at hfuel
  rw [Store.copyLoop, Chain.forEach_eq_foldlM (fun p s s' => copyListed_grows) hchain hfuel]
  exact foldlM_copyListed fun p hp => by simpa using hchain.mem_lt hp

/-- **Links that were set can make the loop endless**: on a ring it runs on,
copying, for any number of rounds. -/
theorem copyLoop_ring {s : Store τ} {t : τ} {ring : List Nat}
    (hring : ∀ p ∈ ring, ∃ q ∈ ring, s.objectLinks[p]? = some (some q)) {head : Nat}
    (hhead : head ∈ ring) (hlist : s.list t = some head) (rounds : Nat) :
    s.copyLoop rounds t = .error .outOfFuel := by
  rw [Store.copyLoop, hlist]
  -- the objects of the ring stay as they are, whatever is added
  refine Chain.forEach_ring (R := fun p s' => p ∈ ring ∧ s.objectLinks <+: s'.objectLinks)
    (fun p s' hp => ?_) ⟨hhead, List.prefix_refl _⟩ rounds
  obtain ⟨hmem, more, hmore⟩ := hp
  obtain ⟨q, hq, hlink⟩ := hring p hmem
  have hlink' : s'.objectLinks[p]? = some (some q) := by
    rw [← hmore]
    exact getElem?_append_some hlink
  obtain ⟨o, ho, _⟩ : ∃ o, s'.objects[p]? = some o ∧ o.prev = some q := by
    simpa [Store.objectLinks] using hlink'
  have hcopy := copyListed_eq ho
  obtain ⟨new, hnew⟩ := copyListed_grows hcopy
  refine ⟨_, q, hcopy, ?_, hq, more ++ new, ?_⟩
  · rw [← hnew]
    exact getElem?_append_some hlink'
  · rw [← hnew, ← hmore, List.append_assoc]

/-- Two objects, and `SetPrev` from the older one to the newer one. -/
theorem copyLoop_ring_sample : ∃ s : Store Unit,
    Store.run {} [.metaObject () "a", .metaObject () "b", .setPrev 0 (some 1)] = .ok s
      ∧ ∀ rounds, s.copyLoop rounds () = .error .outOfFuel := by
  have hhead : 1 ∈ [0, 1] := by decide
  refine ⟨_, rfl, copyLoop_ring ?_ hhead rfl⟩
  decide

/-- The objects of kind `t` that were constructed onto the list, oldest
first; `n` is the number the next object gets. -/
def registered [DecidableEq τ] (t : τ) : Nat → List (Call τ) → List Nat
  | _, [] => []
  | n, .metaObject kind _ :: cs =>
      if kind = t then n :: registered t (n + 1) cs else registered t (n + 1) cs
  | n, .metaObjectNolist _ _ :: cs => registered t (n + 1) cs
  | n, .copyMetaObject _ :: cs => registered t (n + 1) cs
  | n, _ :: cs => registered t n cs

/-- The name a constructor puts onto the list of kind `t`. -/
def registeredName [DecidableEq τ] (t : τ) : Call τ → Option String
  | .metaObject kind name => if kind = t then some name else none
  | _ => none

/-- What one call adds to the registered objects. -/
theorem View.call_registered [DecidableEq τ] {v v' : View τ} {c : Call τ} (hc : v.call c = .ok v')
    (t : τ) (cs : List (Call τ)) :
    registered t v.items.length (c :: cs)
      = ((registeredName t c).map fun _ => v.items.length).toList
        ++ registered t v'.items.length cs := by
  cases c with
  | metaObject kind name =>
      cases hc
      by_cases ht : kind = t
      · subst ht
        simp [registered, registeredName]
      · simp [registered, registeredName, ht]
  | metaObjectNolist _ _ =>
      cases hc
      simp [registered, registeredName]
  | copyMetaObject _ | metaData _ _ _ | copyMetaData _ | setKey _ _ | setValue _ _
  | setName _ _ =>
      simp only [View.call] at hc
      split at hc
      · cases hc
      · cases hc
        simp [registered, registeredName]
  | setPrev _ _ | setFields _ _ =>
      simp only [View.call] at hc
      split at hc
      · cases hc
      · split at hc
        · cases hc
          simp [registered, registeredName]
        · cases hc
  | setList kind p =>
      simp only [View.call] at hc
      split at hc
      · cases hc
        simp [registered, registeredName]
      · cases hc

namespace Store.Lists

variable {s s' : Store τ} {listed : τ → List Nat}

/-- A new object leaves the lists as they are, -/
theorem push (h : s.Lists listed) {o : MetaObject τ} (ho : Chain.Valid s.objectLinks o.prev) :
    ({ s with objects := s.objects ++ [o] } : Store τ).Lists listed := by
  have hlinks : (s.objects ++ [o]).map (·.prev) = s.objectLinks ++ [o.prev] := by
    simp [Store.objectLinks]
  constructor
  case aged =>
    rw [Store.objectLinks, hlinks]
    exact h.aged.push ho
  case linked =>
    intro t
    rw [Store.objectLinks, hlinks]
    exact (h.linked t).append [o.prev]

/-- and so does one that is written without moving its link. -/
theorem set (h : s.Lists listed) {object : Nat} {o o' : MetaObject τ}
    (ho : s.objects[object]? = some o) (hprev : o'.prev = o.prev) (data : List MetaData) :
    ({ s with data := data, objects := s.objects.set object o' } : Store τ).Lists listed := by
  have hlinks : (s.objects.set object o').map (·.prev) = s.objectLinks :=
    Store.map_set_self _ ho hprev
  constructor
  case aged =>
    rw [Store.objectLinks, hlinks]
    exact h.aged
  case linked =>
    intro t
    rw [Store.objectLinks, hlinks]
    exact h.linked t

/-- **One call** that is neither `SetPrev` nor an assignment to `m_List()` puts
at most the object it constructs onto a list. -/
theorem call [DecidableEq τ] (h : s.Lists listed) {c : Call τ} (hc : s.call c = .ok s')
    (hprev : ∀ object p, c ≠ .setPrev object p) (hlist : ∀ kind p, c ≠ .setList kind p) :
    s'.Lists fun t =>
      ((registeredName t c).map fun _ => s.objects.length).toList ++ listed t := by
  cases c with
  | metaObject kind name =>
      cases hc
      have hlinks : (s.metaObject kind name).objectLinks = s.objectLinks ++ [s.list kind] := by
        simp [Store.objectLinks, Store.metaObject]
      constructor
      case aged =>
        rw [hlinks]
        exact h.aged.push (h.linked kind).valid
      case linked =>
        intro t
        rw [hlinks]
        by_cases ht : kind = t
        · subst ht
          have hnew := (h.linked kind).push
          rw [Store.length_objectLinks] at hnew
          simpa [registeredName, Store.metaObject] using hnew
        · have hold := (h.linked t).append [s.list kind]
          simpa [registeredName, Store.metaObject, ht, Function.update_of_ne (Ne.symm ht)]
            using hold
  | metaObjectNolist kind name =>
      cases hc
      exact h.push (Chain.valid_none _)
  | copyMetaObject src =>
      simp only [Store.call, Store.copyMetaObject] at hc
      split at hc
      · cases hc
      · rename_i o ho
        cases hc
        exact h.push (h.aged.valid_link (p := src) (by simp [Store.objectLinks, ho]))
  | metaData target key value =>
      simp only [Store.call, Store.metaData] at hc
      split at hc
      · cases hc
      · rename_i o ho
        cases hc
        refine h.set ho ?_ _
        rfl
  | copyMetaData _ | setKey _ _ | setValue _ _ =>
      simp only [Store.call, Store.copyMetaData, Store.setKey, Store.setValue] at hc
      split at hc
      · cases hc
      · cases hc
        exact ⟨h.aged, h.linked⟩
  | setPrev object p => exact absurd rfl (hprev object p)
  | setName object name =>
      simp only [Store.call, Store.setName] at hc
      split at hc
      · cases hc
      · rename_i o ho
        cases hc
        refine h.set ho ?_ _
        rfl
  | setFields object p =>
      simp only [Store.call, Store.setFields] at hc
      split at hc
      · cases hc
      · rename_i o ho
        split at hc
        · cases hc
          refine h.set ho ?_ _
          rfl
        · cases hc
  | setList kind p => exact absurd rfl (hlist kind p)

theorem run [DecidableEq τ] (hs : s.Sound) (h : s.Lists listed) {cs : List (Call τ)}
    (hrun : s.run cs = .ok s') (hprev : ∀ object p, .setPrev object p ∉ cs)
    (hlist : ∀ kind p, .setList kind p ∉ cs) :
    s'.Lists fun t => (registered t s.objects.length cs).reverse ++ listed t := by
  induction cs generalizing s listed with
  | nil =>
      cases hrun
      exact h
  | cons c cs ih =>
      rw [Store.run, List.foldlM_cons] at hrun
      obtain ⟨s₁, hcall, hrest⟩ := bind_ok hrun
      have hstep := h.call hcall (fun object p he => hprev object p (he ▸ List.mem_cons_self))
        fun kind p he => hlist kind p (he ▸ List.mem_cons_self)
      have hview : s.view.call c = .ok s₁.view := by
        rw [← view_call hs, hcall]
        rfl
      have hreg : ∀ t, registered t s.objects.length (c :: cs)
          = ((registeredName t c).map fun _ => s.objects.length).toList
            ++ registered t s₁.objects.length cs := by
        intro t
        have hregistered := View.call_registered hview t cs
        rw [Store.view_items_length, Store.view_items_length] at hregistered
        exact hregistered
      have hlists := ih (hs.call hcall) hstep hrest
        (fun object p hmem => hprev object p (List.mem_cons_of_mem c hmem))
        fun kind p hmem => hlist kind p (List.mem_cons_of_mem c hmem)
      have hfun : (fun t => (registered t s.objects.length (c :: cs)).reverse ++ listed t)
          = fun t => (registered t s₁.objects.length cs).reverse
            ++ (((registeredName t c).map fun _ => s.objects.length).toList ++ listed t) := by
        funext t
        rw [hreg]
        cases registeredName t c <;> simp
      rw [hfun]
      exact hlists

end Store.Lists

/-- After a run from the start each `m_List()` leads through the objects that
were constructed onto it, newest first. -/
theorem lists_run [DecidableEq τ] {cs : List (Call τ)} {s : Store τ}
    (h : Store.run {} cs = .ok s) (hprev : ∀ object p, .setPrev object p ∉ cs)
    (hlist : ∀ kind p, .setList kind p ∉ cs) :
    s.Lists fun t => (registered t 0 cs).reverse := by
  have hempty : ({} : Store τ).Lists fun _ => [] := ⟨Chain.aged_nil, fun _ => .nil⟩
  have hlists := hempty.run Store.sound_empty h hprev hlist
  simpa using hlists

section Loops

variable [DecidableEq τ]

end Loops

/-- Without `SetName` an object keeps the name it was constructed with. -/
theorem View.name_call [DecidableEq τ] {v v' : View τ} {c : Call τ} (hc : v.call c = .ok v')
    (hname : ∀ o n, c ≠ .setName o n) {p : Nat} {o : Item τ} (ho : v.items[p]? = some o) :
    ∃ o', v'.items[p]? = some o' ∧ o'.name = o.name := by
  cases c with
  | metaObject _ _ | metaObjectNolist _ _ =>
      cases hc
      exact ⟨o, getElem?_append_some ho, rfl⟩
  | copyMetaObject _ =>
      simp only [View.call] at hc
      split at hc
      · cases hc
      · cases hc
        exact ⟨o, getElem?_append_some ho, rfl⟩
  | copyMetaData _ | setKey _ _ | setValue _ _ =>
      simp only [View.call] at hc
      split at hc
      · cases hc
      · cases hc
        exact ⟨o, ho, rfl⟩
  | metaData target _ _ =>
      simp only [View.call] at hc
      split at hc
      · cases hc
      · rename_i o₂ ho₂
        cases hc
        by_cases hne : target = p
        · subst hne
          rw [ho] at ho₂
          cases ho₂
          have hlt := (List.getElem?_eq_some_iff.mp ho).1
          exact ⟨_, List.getElem?_set_self hlt, rfl⟩
        · exact ⟨o, by rw [List.getElem?_set_ne hne, ho], rfl⟩
  | setPrev _ _ =>
      simp only [View.call] at hc
      split at hc
      · cases hc
      · split at hc
        · cases hc
          exact ⟨o, ho, rfl⟩
        · cases hc
  | setFields target _ =>
      simp only [View.call] at hc
      split at hc
      · cases hc
      · rename_i o₂ ho₂
        split at hc
        · cases hc
          by_cases hne : target = p
          · subst hne
            rw [ho] at ho₂
            cases ho₂
            have hlt := (List.getElem?_eq_some_iff.mp ho).1
            exact ⟨_, List.getElem?_set_self hlt, rfl⟩
          · exact ⟨o, by rw [List.getElem?_set_ne hne, ho], rfl⟩
        · cases hc
  | setName object name => exact absurd rfl (hname object name)
  | setList _ _ =>
      simp only [View.call] at hc
      split at hc
      · cases hc
        exact ⟨o, ho, rfl⟩
      · cases hc

theorem View.name_run [DecidableEq τ] {v v' : View τ} {cs : List (Call τ)}
    (hrun : v.run cs = .ok v') (hname : ∀ o n, .setName o n ∉ cs) {p : Nat} {o : Item τ}
    (ho : v.items[p]? = some o) : ∃ o', v'.items[p]? = some o' ∧ o'.name = o.name := by
  induction cs generalizing v o with
  | nil =>
      cases hrun
      exact ⟨o, ho, rfl⟩
  | cons c cs ih =>
      rw [View.run, List.foldlM_cons] at hrun
      obtain ⟨v₁, hcall, hrest⟩ := bind_ok hrun
      obtain ⟨o₁, ho₁, hsame⟩ := View.name_call hcall
        (fun object n he => hname object n (he ▸ List.mem_cons_self)) ho
      obtain ⟨o', ho', hsame'⟩ :=
        ih hrest (fun object n hmem => hname object n (List.mem_cons_of_mem c hmem)) ho₁
      exact ⟨o', ho', hsame'.trans hsame⟩

theorem View.registered_names [DecidableEq τ] {v v' : View τ} {cs : List (Call τ)}
    (hrun : v.run cs = .ok v') (hname : ∀ o n, .setName o n ∉ cs) (t : τ) :
    (registered t v.items.length cs).filterMap (fun p => (v'.items[p]?).map (·.name))
      = cs.filterMap (registeredName t) := by
  induction cs generalizing v with
  | nil => rfl
  | cons c cs ih =>
      rw [View.run, List.foldlM_cons] at hrun
      obtain ⟨v₁, hcall, hrest⟩ := bind_ok hrun
      have hname' : ∀ o n, .setName o n ∉ cs :=
        fun o n hmem => hname o n (List.mem_cons_of_mem c hmem)
      rw [View.call_registered hcall t cs, List.filterMap_append, ih hrest hname',
        List.filterMap_cons]
      cases c with
      | metaObject kind name =>
          by_cases ht : kind = t
          · cases hcall
            -- the object just constructed still has its name at the end
            let new : Item τ := { kind := kind, name := name, attached := [] }
            have hnew : (v.items ++ [new])[v.items.length]? = some new := by simp
            obtain ⟨o', ho', hsame⟩ := View.name_run hrest hname' hnew
            simp [registeredName, ht, ho', hsame, new]
          · simp [registeredName, ht]
      | metaObjectNolist _ _ | copyMetaObject _ | metaData _ _ _ | copyMetaData _ | setKey _ _
      | setValue _ _ | setPrev _ _ | setName _ _ | setFields _ _ | setList _ _ =>
          simp [registeredName]

/-- The copies `Initialize` makes stand in the order of `R.types`, the
`m_List()` order, whatever else the static constructors have made. -/
theorem copyLoop_names [DecidableEq τ] {κ : Type} (R : Meta.Registrations κ) {t : τ}
    {cs : List (Call τ)} {s : Store τ} (h : Store.run {} cs = .ok s)
    (hprev : ∀ object p, .setPrev object p ∉ cs) (hlist : ∀ kind p, .setList kind p ∉ cs)
    (hname : ∀ o n, .setName o n ∉ cs)
    (hcs : cs.filterMap (registeredName t) = (R.types.map (·.name)).reverse) :
    ∃ s', s.copyLoop s.objects.length t = .ok s'
      ∧ (s'.objects.drop s.objects.length).map (·.name) = R.types.map (·.name) := by
  have hview := view_run (Store.sound_empty (τ := τ)) cs
  rw [h] at hview
  have hnames := View.registered_names hview.symm hname t
  refine ⟨_, (lists_run h hprev hlist).copyLoop_eq t, ?_⟩
  rw [List.drop_left, List.map_filterMap, ← List.reverse_reverse (R.types.map (·.name)),
    ← hcs, ← hnames, List.filterMap_reverse]
  congr 1
  refine List.filterMap_congr fun p _ => ?_
  rw [Store.view_items_get, Option.map_map]
  rfl

end SkyEngine.MetaObjects
