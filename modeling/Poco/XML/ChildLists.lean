import Poco.XML.ContainerNode
import Mathlib.Data.Fin.VecNotation
import Mathlib.Data.List.Nodup

/-!
# The lists of children

Attributes of elements are nodes that have a parent and are in no list of children (elements
have a second list for them, which uses the same pointers).  The lists are what they are meant to
be after every call that returns, with two exceptions: a fragment that has no children, when
inserted, makes the container lose all its children, and an attribute is accepted as the node to
insert before if the container has no children.

## Main definitions

* `Linked`: the pointers store the lists `kids` of children; `attr` are the attributes of elements.
* `Leaves`: a call leaves lists of children again; if it returns, `l` is the list of `p`, and a
  fragment that was inserted is left empty.
* `Misplaces`: the two exceptions.

## Main results

* `insert_fragment`, `insert_empty`: what becomes of the children of a fragment.
* `child_lists`: what `insertBefore`, `removeChild` and `replaceChild` leave.
-/

namespace Poco.XML

open List Pointers Function

variable {I : Type}

/-! ### Lists of children -/

def Children (h : Links I) (p : I) (l : List I) : Prop := Seg h.next (h.first p) l none

instance [DecidableEq I] (h : Links I) (p : I) (l : List I) : Decidable (Children h p l) :=
  inferInstanceAs (Decidable (Seg _ _ _ _))

structure Linked (N : Nodes I) (attr : I → Prop) (h : Links I) (kids : I → List I) : Prop where
  chain : ∀ p, Children h p (kids p)
  mem : ∀ p x, x ∈ kids p ↔ h.parent x = some p ∧ ¬attr x
  loose : ∀ x, h.parent x = none → h.next x = none
  attached : ∀ x, attr x → h.parent x ≠ none
  fragment : ∀ x, N.nodeType x = .documentFragment → h.parent x = none

variable {N : Nodes I} {attr : I → Prop} {h h' : Links I} {kids : I → List I} {p q x y : I}

/-- The parents, after the nodes `gone` have lost theirs and the nodes `new` have got the
parent `p`. -/
def rehomed [DecidableEq I] (h : Links I) (p : I) (new gone : List I) (y : I) : Option I :=
  if y ∈ gone then none else if y ∈ new then some p else h.parent y

namespace Linked

section

variable (hl : Linked N attr h kids)
include hl

theorem nodup (p : I) : (kids p).Nodup := Seg.nodup (hl.chain p)

theorem eq_of_mem (hp : x ∈ kids p) (hq : x ∈ kids q) : p = q := by
  have hpar := ((hl.mem p x).mp hp).1
  rw [((hl.mem q x).mp hq).1] at hpar
  exact (Option.some.inj hpar).symm

theorem notMem_of_ne (hx : x ∈ kids p) (hq : q ≠ p) : x ∉ kids q :=
  fun hmem => hq (hl.eq_of_mem hmem hx)

theorem notMem (hx : h.parent x = none) (p : I) : x ∉ kids p := by
  intro hmem
  rw [((hl.mem p x).mp hmem).1] at hx
  cases hx

theorem first_eq (p : I) : h.first p = (kids p).head? := by
  have hch := hl.chain p
  cases hkids : kids p with
  | nil =>
    rw [hkids] at hch
    exact hch
  | cons c cs =>
    rw [hkids] at hch
    exact hch.1

end

variable [DecidableEq I]

/-- What is left after nodes have lost their parent and others have got the parent `p`. -/
theorem of_rehomed (hl : Linked N attr h kids) {K : I → List I}
    (hpar : h'.parent = rehomed h p new gone)
    (hnew : ∀ y ∈ new, y ∉ gone ∧ ¬attr y ∧ N.nodeType y ≠ .documentFragment)
    (hgone : ∀ y ∈ gone, ¬attr y ∧ h'.next y = none)
    (hK : ∀ q y, y ∈ K q ↔ y ∈ new ∧ q = p ∨ y ∈ kids q ∧ y ∉ new ∧ y ∉ gone)
    (hch : ∀ q, Children h' q (K q))
    (hfrm : ∀ y, y ∉ new → y ∉ gone → y ∉ kids p → h'.next y = h.next y) : Linked N attr h' K where
  chain := hch
  mem q y := by
    rw [hK, hpar, rehomed]
    by_cases hg : y ∈ gone
    · have hn : y ∉ new := fun hn => (hnew y hn).1 hg
      simp [hg, hn]
    · by_cases hn : y ∈ new
      · simp [hg, hn, (hnew y hn).2.1, eq_comm]
      · simp [hg, hn, hl.mem q y]
  loose y hy := by
    rw [hpar, rehomed] at hy
    split_ifs at hy with hg hn
    · exact (hgone y hg).2
    · rw [hfrm y hn hg (hl.notMem hy p)]
      exact hl.loose y hy
  attached y hy := by
    have hg : y ∉ gone := fun hg => (hgone y hg).1 hy
    have hn : y ∉ new := fun hn => (hnew y hn).2.1 hy
    rw [hpar, rehomed, if_neg hg, if_neg hn]
    exact hl.attached y hy
  fragment y hy := by
    have hn : y ∉ new := fun hn => (hnew y hn).2.2 hy
    rw [hpar, rehomed, if_neg hn, hl.fragment y hy, ite_self]

variable {ref : Option I} {old : I}

/-- What is left after nodes have been taken out of their lists, which leaves the lists `K`,
and have been put into the list of `p`. -/
theorem of_spliced (hl : Linked N attr h kids) {K : I → List I}
    (hK : ∀ q y, y ∈ K q ↔ y ∈ kids q ∧ y ∉ new)
    (hnew : ∀ y ∈ new, ¬attr y ∧ N.nodeType y ≠ .documentFragment)
    (hch : ∀ q, Children h' q (update K p (placeBefore new ref (K p)) q))
    (hpar : h'.parent = rehomed h p new []) (hfrm : ∀ y, y ∉ new → y ∉ K p → h'.next y = h.next y) :
    Linked N attr h' (update K p (placeBefore new ref (K p))) := by
  refine hl.of_rehomed hpar (fun y hy => ⟨not_mem_nil, hnew y hy⟩) (fun y hy => nomatch hy) ?_
    hch fun y hn _ hy => hfrm y hn fun hmem => hy ((hK p y).mp hmem).1
  intro q y
  by_cases hq : q = p
  · subst hq
    simp [mem_placeBefore, hK]
  · simp [hK, hq]

end Linked

variable [DecidableEq I]

theorem chain_update (hch : ∀ q, Children h q (kids q)) (hp : Children h' p l)
    (hfst : ∀ {q}, q ≠ p → h'.first q = h.first q)
    (hnext : ∀ {q y}, q ≠ p → y ∈ kids q → h'.next y = h.next y) (q : I) :
    Children h' q (update kids p l q) := by
  by_cases hq : q = p
  · subst hq
    rwa [update_self]
  · rw [update_of_ne hq, Children, hfst hq]
    exact Seg.congr (hch q) fun y hy => hnext hq hy

/-- What is left after the list of `p` has been changed: children are gone, and nodes that had no
parent are new. -/
theorem Linked.of_changed (hl : Linked N attr h kids) (hpar : h'.parent = rehomed h p new gone)
    (hnew : ∀ y ∈ new, h.parent y = none ∧ ¬attr y ∧ N.nodeType y ≠ .documentFragment)
    (hgone : ∀ y ∈ gone, y ∈ kids p ∧ h'.next y = none)
    (hmem : ∀ y, y ∈ l ↔ y ∈ new ∨ y ∈ kids p ∧ y ∉ gone) (hch : Children h' p l)
    (hfst : ∀ {q}, q ≠ p → h'.first q = h.first q)
    (hfrm : ∀ y, y ∉ new → y ∉ kids p → h'.next y = h.next y) :
    Linked N attr h' (update kids p l) := by
  have hout : ∀ {q y}, y ∈ kids q → y ∉ new := fun hy hn => hl.notMem (hnew _ hn).1 _ hy
  have hoth : ∀ {q y}, q ≠ p → y ∈ kids q → y ∉ gone := fun hq hy hg =>
    hl.notMem_of_ne (hgone _ hg).1 hq hy
  refine hl.of_rehomed hpar (fun y hy => ⟨fun hg => hout (hgone y hg).1 hy, (hnew y hy).2⟩)
    (fun y hy => ⟨((hl.mem p y).mp (hgone y hy).1).2, (hgone y hy).2⟩) (fun q y => ?_)
    (chain_update hl.chain hch hfst fun {q y} hq hy => ?_) fun y hy _ => hfrm y hy
  · by_cases hq : q = p
    · subst hq
      rw [update_self, hmem]
      tauto
    · rw [update_of_ne hq]
      tauto
  · exact hfrm y (hout hy) (hl.notMem_of_ne hy hq.symm)

/-! ### The pointer to a child -/

/-- Assignment to the pointer that leads to a child: that to the first child of `p`, or that of
the child before it. -/
def Links.redirect (h : Links I) (p : I) (cur v : Option I) : Links I :=
  match cur with
  | none => h.setFirst p v
  | some cur => h.setNext cur v

section

theorem parent_redirect : (h.redirect p cur v).parent = h.parent := by
  cases cur with
  | none | some => rfl

theorem first_redirect (hq : q ≠ p) : (h.redirect p cur v).first q = h.first q := by
  cases cur with
  | none => exact update_of_ne hq _ _
  | some => rfl

theorem next_redirect {l : List I} (hy : y ∉ l) :
    (h.redirect p l.getLast? v).next y = h.next y := by
  cases hl : l.getLast? with
  | none => rfl
  | some c => exact update_of_ne (fun heq : y = c => hy (heq ▸ mem_of_getLast? hl)) _ _

theorem children_redirect {b : Option I} (hseg : Seg h.next (h.first p) l₁ b)
    (hrest : Seg h.next v l₂ none) (hnd : (l₁ ++ l₂).Nodup) :
    Children (h.redirect p l₁.getLast? v) p (l₁ ++ l₂) := by
  obtain ⟨hnd₁, -, hdisj⟩ := nodup_append.mp hnd
  refine seg_append.mpr ⟨v, ?_, hrest.congr fun y hy => next_redirect fun hmem =>
    hdisj y hmem y hy rfl⟩
  rcases eq_nil_or_concat' l₁ with rfl | ⟨l, c, rfl⟩
  · exact update_self _ _ _
  · rw [getLast?_concat]
    refine hseg.update_last (fun hmem => ?_) v
    exact (nodup_append.mp hnd₁).2.2 c hmem c mem_cons_self rfl

end

variable [Fintype I]

/-- A child is the first one, or the loop finds the one before it. -/
theorem Linked.position (hl : Linked N attr h kids) (hx : x ∈ kids p) :
    ∃ l₁ l₂, kids p = l₁ ++ x :: l₂ ∧ (x ∉ l₁ ++ l₂ ∧ (l₁ ++ l₂).Nodup) ∧
      Seg h.next (h.first p) l₁ (some x) ∧ Seg h.next (h.next x) l₂ none ∧
      (l₁.getLast? = none ∧ h.first p = some x ∨ ∃ cur, l₁.getLast? = some cur ∧
        h.first p ≠ some x ∧ h.next cur = some x ∧
        before h.next (some x) (Fintype.card I) (h.first p) = some (some cur)) := by
  have hseg := hl.chain p
  have hlen := Seg.length_le (hl.chain p)
  have hnd := hl.nodup p
  obtain ⟨l₁, l₂, hkids, hnot⟩ := eq_append_cons_of_mem hx
  rw [hkids] at hseg
  rw [hkids] at hlen hnd
  obtain ⟨b, hbef, rfl, hrest⟩ := seg_append.mp hseg
  refine ⟨l₁, l₂, hkids, nodup_cons.mp (nodup_middle.mp hnd), hbef, hrest, ?_⟩
  rcases eq_nil_or_concat' l₁ with rfl | ⟨l, cur, rfl⟩
  · exact .inl ⟨rfl, hbef⟩
  have hfst : h.first p ≠ some x := by
    intro heq
    rw [heq] at hbef
    refine hnot ?_
    cases l with
    | nil => simpa using hbef.1
    | cons c cs => simp [Option.some.inj hbef.1]
  refine .inr ⟨cur, getLast?_concat, hfst, (seg_concat.mp hbef).2, ?_⟩
  refine before_eq_some hbef (fun z hz heq => hnot (Option.some.inj heq ▸ hz)) ?_
  simp only [length_append, length_cons] at hlen
  omega

namespace AbstractContainerNode

/-! ### removeChild -/

section

variable (hl : Linked N attr h kids)
include hl

theorem removeChild_of_mem (hx : x ∈ kids p) :
    ∃ h', removeChild h p (some x) = some (h', .ok x) ∧
      h'.parent = rehomed h p [] [x] ∧ Linked N attr h' fun q => (kids q).erase x := by
  have hlis : (fun q => (kids q).erase x) = update kids p ((kids p).erase x) := by
    funext q
    by_cases hq : q = p
    · rw [hq, update_self]
    · rw [update_of_ne hq, erase_of_not_mem (hl.notMem_of_ne hx hq)]
  obtain ⟨l₁, l₂, hkids, ⟨hnot, hnd⟩, hbef, hrest, hcase⟩ := hl.position hx
  have hcall : removeChild h p (some x) = some (((h.redirect p l₁.getLast? (h.next x)).setNext x
      none).setParent x none, .ok x) := by
    rcases hcase with ⟨hlast, hfst⟩ | ⟨cur, hlast, hfst, hnext, hloop⟩
    · rw [removeChild, if_pos hfst, hlast]
      rfl
    · simp only [removeChild, if_neg hfst, hloop, hnext, Option.bind_some, hlast]
      rfl
  have hpar : ((h.redirect p l₁.getLast? (h.next x)).setParent x none).parent =
      rehomed h p [] [x] := by
    funext y
    by_cases hy : y = x <;> simp [rehomed, hy, Links.setParent, parent_redirect]
  refine ⟨_, hcall, hpar, ?_⟩
  rw [hlis]
  refine hl.of_changed hpar nofun (forall_mem_singleton.mpr ⟨hx, update_self _ _ _⟩)
    (fun y => ?_) ?_ first_redirect fun y _ hy => ?_
  · simp [(hl.nodup p).mem_erase_iff, and_comm]
  · rw [hkids, erase_append_cons fun hmem => hnot (mem_append_left _ hmem), Children]
    exact (seg_update hnot none).mpr (children_redirect hbef hrest hnd)
  · rw [hkids] at hy
    simp only [mem_append, mem_cons, not_or] at hy
    exact (update_of_ne hy.2.1 _ _).trans (next_redirect hy.1)

theorem removeChild_of_notMem (hx : x ∉ kids p) :
    removeChild h p (some x) = some (h, .error .notFound) := by
  have hfst : h.first p ≠ some x := by
    intro heq
    rw [hl.first_eq p] at heq
    exact hx (mem_of_mem_head? heq)
  have hloop := before_eq_none (hl.chain p) hx (Seg.length_le (hl.chain p))
  simp [removeChild, if_neg hfst, hloop]

theorem detach_eq (hx : ¬attr x) :
    ∃ h', detach h x = some (h', .ok x) ∧ h'.parent = rehomed h x [] [x] ∧
      Linked N attr h' fun q => (kids q).erase x := by
  cases hpar : h.parent x with
  | none =>
    have hkids : (fun q => (kids q).erase x) = kids :=
      funext fun q => erase_of_not_mem (hl.notMem hpar q)
    refine ⟨h, by simp [detach, hpar], funext fun y => ?_, ?_⟩
    · by_cases hy : y = x <;> simp [rehomed, hy, hpar]
    · rw [hkids]
      exact hl
  | some q =>
    simp only [detach, hpar]
    exact removeChild_of_mem hl ((hl.mem q x).mpr ⟨hpar, hx⟩)

theorem detach_of_attr (hx : attr x) : detach h x = some (h, .error .notFound) := by
  cases hpar : h.parent x with
  | none => exact absurd hpar (hl.attached x hx)
  | some q =>
    simp only [detach, hpar]
    exact removeChild_of_notMem hl fun hmem => ((hl.mem q x).mp hmem).2 hx

end

/-! ### insertBefore -/

omit [Fintype I] in
theorem adopt_eq (hseg : Seg h.next (some c) (l ++ [last]) none) (hn : l.length < n) :
    ∃ h', adopt p n c h = some (h', last) ∧ h'.next = h.next ∧ h'.first = h.first ∧
      ∀ y, h'.parent y = if y ∈ l ++ [last] then some p else h.parent y := by
  induction l generalizing c h n with
  | nil =>
    obtain ⟨hc, hend⟩ := hseg
    cases hc
    obtain ⟨n, rfl⟩ := Nat.exists_eq_succ_of_ne_zero (Nat.ne_of_gt hn)
    refine ⟨h.setParent last (some p), by simp [adopt, show h.next last = none from hend],
      rfl, rfl, fun y => ?_⟩
    by_cases hy : y = last
    · subst hy
      simp [Links.setParent]
    · simp [Links.setParent, hy]
  | cons x l ih =>
    obtain ⟨hc, hseg⟩ := hseg
    obtain rfl := Option.some.inj hc
    obtain ⟨n, rfl⟩ := Nat.exists_eq_succ_of_ne_zero (Nat.ne_of_gt (Nat.zero_lt_of_lt hn))
    obtain ⟨x', hx'⟩ : ∃ x', h.next c = some x' := by
      cases l with
      | nil => exact ⟨last, hseg.1⟩
      | cons x' l => exact ⟨x', hseg.1⟩
    rw [hx'] at hseg
    obtain ⟨h', heq, hnext, hfst, hpar⟩ :=
      ih (h := h.setParent c (some p)) hseg (Nat.lt_of_succ_lt_succ hn)
    refine ⟨h', by simp [adopt, hx', heq], hnext, hfst, fun y => ?_⟩
    rw [hpar y]
    by_cases hy : y = c
    · subst hy
      simp [Links.setParent]
    · simp [Links.setParent, hy]

theorem splice_eq (hch : ∀ q, Children h q (kids q))
    (hdisj : ∀ q q' y, y ∈ kids q → y ∈ kids q' → q = q')
    (hnew : Seg h.next (some first) (l ++ [last]) none) (hout : ∀ y ∈ l ++ [last], ∀ q, y ∉ kids q)
    (href : kids p ≠ [] → ∀ r ∈ ref, r ∈ kids p) :
    ∃ h', splice h p x (some (first, last)) ref = some (h', .ok x) ∧ h'.parent = h.parent ∧
      (∀ q, Children h' q
        (update kids p (placeBefore (l ++ [last]) ref (kids p)) q)) ∧
      ∀ y, y ∉ l ++ [last] → y ∉ kids p → h'.next y = h.next y := by
  have hlast : ∀ q, last ∉ kids q := hout last (by simp)
  have hlas : last ∉ l := fun hmem =>
    (nodup_append.mp hnew.nodup).2.2 last hmem last mem_cons_self rfl
  have hseg := hch p
  have hlen := Seg.length_le (hch p)
  -- where the nodes are put, and what is done to the pointers for it
  have hplc : ∃ l₁ l₂ b, kids p = l₁ ++ l₂ ∧
      placeBefore (l ++ [last]) ref (kids p) = l₁ ++ (l ++ [last] ++ l₂) ∧
      Seg h.next (h.first p) l₁ b ∧ Seg h.next b l₂ none ∧
      splice h p x (some (first, last)) ref =
        some ((h.setNext last b).redirect p l₁.getLast? (some first), .ok x) := by
    rw [Children] at hseg
    cases hkids : kids p with
    | nil =>
      -- there are no children
      rw [hkids] at hseg
      refine ⟨[], [], none, rfl, (append_nil _).symm, hseg, rfl, ?_⟩
      have hsame : h.setNext last none = h := by
        rw [Links.setNext, ← (seg_concat.mp hnew).2, update_eq_self]
      rw [hsame]
      simp only [splice, show h.first p = none from hseg]
      rfl
    | cons c cs =>
      rw [hkids] at hseg hlen href
      have hfst : h.first p = some c := hseg.1
      by_cases hc : ref = some c
      · -- before the first child
        refine ⟨[], c :: cs, some c, rfl, if_pos hc, hfst, hfst ▸ hseg, ?_⟩
        simp only [splice, hfst, if_pos hc]
        rfl
      -- after the child that the loop finds
      obtain ⟨l₁, cur, l₂, heq, hhead, hnot, hplc⟩ :=
        exists_placeBefore (l ++ [last]) hc (href (cons_ne_nil c cs))
      rw [heq] at hseg hlen
      obtain ⟨b, hbef, hrest⟩ := seg_append.mp hseg
      have hb : b = ref := by
        rw [← hhead]
        cases l₂ with
        | nil => exact hrest
        | cons r l₂ => exact hrest.1
      subst hb
      have hloop : before h.next b (Fintype.card I) (some c) = some (some cur) := by
        rw [← hfst]
        refine before_eq_some hbef hnot ?_
        simp only [length_append, length_cons] at hlen
        omega
      refine ⟨l₁ ++ [cur], l₂, b, heq, hplc.trans (append_assoc ..), hbef, hrest, ?_⟩
      rw [getLast?_concat]
      simp only [splice, hfst, if_neg hc, hloop, (seg_concat.mp hbef).2]
      rfl
  obtain ⟨l₁, l₂, b, hkids, hplc, hbef, hrest, hcall⟩ := hplc
  have hlast' : last ∉ l₁ ++ l₂ := hkids ▸ hlast p
  have hfrm : ∀ y, y ∉ l ++ [last] → y ∉ kids p →
      ((h.setNext last b).redirect p l₁.getLast? (some first)).next y = h.next y := by
    intro y hy hyp
    rw [next_redirect fun hmem => hyp (hkids ▸ mem_append_left _ hmem)]
    exact update_of_ne (fun heq => hy (by simp [heq])) _ _
  refine ⟨_, hcall, parent_redirect, ?_, hfrm⟩
  rw [hplc]
  refine chain_update hch (children_redirect (b := b) ?_ ?_ ?_) first_redirect fun {q y} hq hy => ?_
  · exact (seg_update (fun hmem => hlast' (mem_append_left _ hmem)) _).mpr hbef
  · refine seg_append.mpr ⟨b, hnew.update_last hlas b, ?_⟩
    exact (seg_update (fun hmem => hlast' (mem_append_right _ hmem)) _).mpr hrest
  · refine (perm_append_comm_assoc _ _ _).nodup_iff.mpr (hnew.nodup.append ?_ fun y hy hyp => ?_)
    · exact hkids ▸ Seg.nodup (hch p)
    · exact hout y hy p (hkids ▸ hyp)
  · exact hfrm y (fun hmem => hout y hmem q hy) fun hyp => hq (hdisj _ _ y hy hyp)

theorem insert_node (hl : Linked N attr h kids) (htype : N.nodeType x ≠ .documentFragment)
    (hx : ¬attr x) (href : (kids p).erase x ≠ [] → ∀ r ∈ ref, r ∈ kids p) (hne : ref ≠ some x) :
    ∃ h', insert N h p x ref = some (h', .ok x) ∧
      h'.parent = rehomed h p [x] [] ∧
      Linked N attr h' (update (fun q => (kids q).erase x) p
        (placeBefore [x] ref ((kids p).erase x))) := by
  obtain ⟨h₁, hdet, hpar₁, hl₁⟩ := detach_eq hl hx
  have hx₁ : h₁.parent x = none := by simp [hpar₁, rehomed]
  have hout : ∀ q, x ∉ (kids q).erase x := hl₁.notMem hx₁
  have href₁ : (kids p).erase x ≠ [] → ∀ r ∈ ref, r ∈ (kids p).erase x := by
    intro hsome r hr
    have hrx : r ≠ x := by
      rintro rfl
      exact hne hr
    exact (mem_erase_of_ne hrx).mpr (href hsome r hr)
  have hnew : Seg (h₁.setParent x (some p)).next (some x) ([] ++ [x]) none :=
    ⟨rfl, hl₁.loose x hx₁⟩
  obtain ⟨h', hspl, hpar, hch, hfrm⟩ :=
    splice_eq (h := h₁.setParent x (some p)) (x := x) hl₁.chain
      (fun _ _ _ hq hq' => hl₁.eq_of_mem hq hq') hnew (by simpa using hout) href₁
  have hpar' : ∀ y, h'.parent y = if y = x then some p else h₁.parent y := fun y => by
    rw [hpar]
    exact update_apply ..
  refine ⟨h', ?_, funext fun y => ?_, ?_⟩
  · simp [insert, if_neg htype, hdet, hspl]
  · rw [hpar', hpar₁]
    by_cases hy : y = x <;> simp [rehomed, hy]
  · refine hl₁.of_spliced ?_ ?_ hch (funext fun y => ?_) hfrm
    · exact fun q y => ⟨fun hy => ⟨hy, fun hmem => hout q (mem_singleton.mp hmem ▸ hy)⟩, And.left⟩
    · exact forall_mem_singleton.mpr ⟨hx, htype⟩
    · rw [hpar']
      simp [rehomed]

theorem insert_empty (htype : N.nodeType x = .documentFragment) (hx : h.first x = none) :
    insert N h p x ref = some ((h.setFirst x none).setFirst p none, .ok x) := by
  simp only [insert, if_pos htype, takeChildren, hx]
  rw [splice]
  · rfl
  · intro c first last _ hnone
    cases hnone

theorem takeChildren_eq (hl : Linked N attr h kids) (p : I) (hkids : kids x = l ++ [last]) :
    ∃ h' c, takeChildren h p x = some (h', some (c, last)) ∧ h'.next = h.next ∧
      h'.parent = rehomed h p (kids x) [] ∧ Seg h'.next (some c) (l ++ [last]) none ∧
      ∀ q, Children h' q (update kids x [] q) := by
  have hseg := hl.chain x
  rw [Children, hkids] at hseg
  obtain ⟨c, hfrs⟩ : ∃ c, h.first x = some c := by
    rw [hl.first_eq, hkids]
    cases l with
    | nil => exact ⟨last, rfl⟩
    | cons c l => exact ⟨c, rfl⟩
  rw [hfrs] at hseg
  have hlen : l.length < Fintype.card I := by
    have hle := hseg.length_le
    rw [length_append, length_singleton] at hle
    omega
  obtain ⟨h₁, hado, hnext, hfst, hpar⟩ := adopt_eq (p := p) hseg hlen
  refine ⟨h₁.setFirst x none, c, by simp [takeChildren, hfrs, hado], hnext, funext fun y => ?_,
    hnext ▸ hseg, fun q => ?_⟩
  · rw [rehomed, if_neg not_mem_nil, hkids]
    exact hpar y
  · change Seg h₁.next (update h₁.first x none q) _ none
    rw [hnext, hfst]
    by_cases hq : q = x
    · subst hq
      rw [update_self, update_self]
      rfl
    · rw [update_of_ne hq, update_of_ne hq]
      exact hl.chain q

theorem insert_fragment (hl : Linked N attr h kids) (htype : N.nodeType x = .documentFragment)
    (hpx : p ≠ x) (href : kids p ≠ [] → ∀ r ∈ ref, r ∈ kids p)
    (hsome : kids x = [] → kids p = []) :
    ∃ h', insert N h p x ref = some (h', .ok x) ∧
      h'.parent = rehomed h p (kids x) [] ∧
      Linked N attr h' (update (update kids x []) p
        (placeBefore (kids x) ref (kids p))) := by
  have hK : ∀ q y, y ∈ update kids x [] q ↔ y ∈ kids q ∧ y ∉ kids x := by
    intro q y
    by_cases hq : q = x
    · subst hq
      simp
    · rw [update_of_ne hq]
      exact ⟨fun hy => ⟨hy, fun hmem => hq (hl.eq_of_mem hy hmem)⟩, And.left⟩
  have hKp : update kids x [] p = kids p := update_of_ne hpx _ _
  have hnew : ∀ y ∈ kids x, ¬attr y ∧ N.nodeType y ≠ .documentFragment := by
    intro y hy
    obtain ⟨hpar, hattr⟩ := (hl.mem x y).mp hy
    exact ⟨hattr, fun htype => by rw [hl.fragment y htype] at hpar; cases hpar⟩
  rcases eq_nil_or_concat' (kids x) with hkids | ⟨l, last, hkids⟩
  · -- nothing is put into an empty list
    have hfrs : h.first x = none := by rw [hl.first_eq, hkids]; rfl
    have hfir : h.first p = none := by rw [hl.first_eq, hsome hkids]; rfl
    have hsame : (h.setFirst x none).setFirst p none = h := by
      change { h with first := update (update h.first x none) p none } = h
      rw [← hfrs, update_eq_self, hfrs, ← hfir, update_eq_self]
    have hlis : update (update kids x []) p (placeBefore (kids x) ref (kids p)) = kids := by
      have hx : update kids x [] = kids := hkids ▸ update_eq_self x kids
      rw [hx, hkids, hsome hkids, placeBefore, ← hsome hkids, update_eq_self]
    refine ⟨h, ?_, funext fun y => by simp [rehomed, hkids], hlis.symm ▸ hl⟩
    rw [insert_empty htype hfrs, hsame]
  · obtain ⟨h₁, c, htake, hnext₁, hpar₁, hseg, hch₁⟩ := takeChildren_eq hl p hkids
    obtain ⟨h', hspl, hpar, hch, hfrm⟩ :=
      splice_eq (x := x) hch₁
        (fun q q' y hq hq' => hl.eq_of_mem ((hK q y).mp hq).1 ((hK q' y).mp hq').1)
        hseg (fun y hy q hmem => ((hK q y).mp hmem).2 (hkids ▸ hy)) (hKp ▸ href)
    rw [← hkids] at hch hfrm
    refine ⟨h', by simp [insert, if_pos htype, htake, hspl], hpar.trans hpar₁, ?_⟩
    rw [← hKp]
    refine hl.of_spliced hK hnew hch (hpar.trans hpar₁) fun y hy hyp => ?_
    rw [hfrm y hy hyp, hnext₁]

theorem splice_of_notMem (hch : Children h p l) (hne : l ≠ []) (hr : r ∉ l) (new : I × I) :
    splice h p x (some new) (some r) = some (h, .error .notFound) := by
  have hloop := before_eq_none hch hr (Seg.length_le hch)
  obtain ⟨c, l, rfl⟩ := exists_cons_of_ne_nil hne
  have hfst : h.first p = some c := hch.1
  have hc : r ≠ c := ne_of_not_mem_cons hr
  rw [hfst] at hloop
  simp [splice, hfst, hc, hloop]

def others (N : Nodes I) (kids : I → List I) (p x : I) : List I :=
  if N.nodeType x = .documentFragment then kids p else (kids p).erase x

/-- An attribute is not found, where there are children. -/
theorem insert_of_attr (hl : Linked N attr h kids) (hpx : p ≠ x) (hr : attr r)
    (hx : attr x ∨ others N kids p x ≠ [])
    (hsome : N.nodeType x = .documentFragment → kids x ≠ []) :
    ∃ h', insert N h p x (some r) = some (h', .error .notFound) := by
  have hnot : ∀ {h₁ kids₁}, Linked N attr h₁ kids₁ → ∀ q, r ∉ kids₁ q :=
    fun hl₁ q hmem => ((hl₁.mem q r).mp hmem).2 hr
  by_cases htype : N.nodeType x = .documentFragment
  · have hp : kids p ≠ [] := by
      rcases hx with hx | hx
      · exact absurd (hl.fragment x htype) (hl.attached x hx)
      · rwa [others, if_pos htype] at hx
    obtain ⟨l, last, hkids⟩ := (eq_nil_or_concat' (kids x)).resolve_left (hsome htype)
    obtain ⟨h₁, c, htake, -, -, -, hch⟩ := takeChildren_eq hl p hkids
    have hchp := hch p
    rw [update_of_ne hpx] at hchp
    exact ⟨h₁, by simp [insert, if_pos htype, htake, splice_of_notMem hchp hp (hnot hl p)]⟩
  · rw [others, if_neg htype] at hx
    by_cases hattr : attr x
    · exact ⟨h, by simp [insert, if_neg htype, detach_of_attr hl hattr]⟩
    · obtain ⟨h₁, hdet, -, hl₁⟩ := detach_eq hl hattr
      have hspl := splice_of_notMem (h := h₁.setParent x (some p)) (x := x) (hl₁.chain p)
        (hx.resolve_left hattr) (hnot hl₁ p) (x, x)
      exact ⟨_, by simp only [insert, if_neg htype, hdet]; exact hspl⟩

/-! ### replaceChild -/

theorem exchange_eq (hl : Linked N attr h kids) (hx : h.parent x = none) (hattr : ¬attr x)
    (htype : N.nodeType x ≠ .documentFragment) (hold : old ∈ kids p) :
    ∃ h', exchange h p x old = some (h', .ok old) ∧
      h'.parent = rehomed h p [x] [old] ∧
      Linked N attr h' (update kids p (substitute [x] old (kids p))) := by
  have hpar : update (update h.parent x (some p)) old none =
      rehomed h p [x] [old] := by
    funext y
    by_cases hy : y = old
    · simp [rehomed, hy]
    · simp [rehomed, hy, update_apply]
  obtain ⟨l₁, l₂, hkids, ⟨hnot, hnd⟩, hbef, hrest, hcase⟩ := hl.position hold
  have hxp := hl.notMem hx p
  rw [hkids] at hxp
  simp only [mem_append, mem_cons, not_or] at hnot hxp
  have hcall : exchange h p x old = some (((((h.setNext x (h.next old)).setParent x
      (some p)).setNext old none).setParent old none).redirect p l₁.getLast? (some x),
        .ok old) := by
    rcases hcase with ⟨hlast, hfst⟩ | ⟨cur, hlast, hfst, -, hloop⟩
    · rw [exchange, if_pos hfst, hlast]
      rfl
    · simp only [exchange, if_neg hfst, hloop, hlast]
      rfl
  refine ⟨_, hcall, parent_redirect.trans hpar, hl.of_changed (parent_redirect.trans hpar)
    (forall_mem_singleton.mpr ⟨hx, hattr, htype⟩) (forall_mem_singleton.mpr ⟨hold, ?_⟩)
    (fun y => ?_) ?_ first_redirect fun y hy hyp => ?_⟩
  · rw [next_redirect hnot.1]
    exact update_self _ _ _
  · rw [mem_substitute (hl.nodup p) hold, mem_singleton, mem_singleton]
  · rw [hkids, substitute_append hnot.1, append_assoc]
    refine children_redirect (b := some old) ?_ ⟨rfl, ?_⟩ ?_
    · exact (seg_update hnot.1 _).mpr ((seg_update hxp.1 _).mpr hbef)
    · change Seg (update (update h.next x (h.next old)) old none)
        (update (update h.next x (h.next old)) old none x) l₂ none
      rw [update_of_ne hxp.2.1, update_self]
      exact (seg_update hnot.2 _).mpr ((seg_update hxp.2.2 _).mpr hrest)
    · refine nodup_middle.mpr (nodup_cons.mpr ⟨?_, hnd⟩)
      simp [hxp]
  · rw [hkids] at hyp
    simp only [mem_append, mem_cons, not_or] at hyp
    rw [next_redirect hyp.1]
    change update (update h.next x (h.next old)) old none y = _
    rw [update_of_ne hyp.2.1, update_of_ne (by simpa using hy)]

theorem replace_node (hl : Linked N attr h kids) (htype : N.nodeType x ≠ .documentFragment)
    (hx : ¬attr x) (hold : old ∈ kids p) (hne : x ≠ old) :
    ∃ h', replace N h p x old = some (h', .ok old) ∧
      h'.parent = rehomed h p [x] [old] ∧
      Linked N attr h' (update (fun q => (kids q).erase x) p
        (substitute [x] old ((kids p).erase x))) := by
  obtain ⟨h₁, hdet, hpar₁, hl₁⟩ := detach_eq hl hx
  have hx₁ : h₁.parent x = none := by simp [hpar₁, rehomed]
  obtain ⟨h', hexc, hpar, hl'⟩ :=
    exchange_eq hl₁ hx₁ hx htype ((mem_erase_of_ne hne.symm).mpr hold)
  refine ⟨h', ?_, funext fun y => ?_, hl'⟩
  · simp [replace, if_neg htype, hdet, hexc]
  · by_cases hy : y = x <;> simp [hpar, hpar₁, rehomed, hy]

theorem replace_fragment (hl : Linked N attr h kids) (htype : N.nodeType x = .documentFragment)
    (hpx : p ≠ x) (hown : ¬(N.owner x ≠ N.owner p ∧ N.owner x ≠ some p)) (hold : old ∈ kids p)
    (hsome : kids x ≠ []) :
    ∃ h', replace N h p x old = some (h', .ok old) ∧
      h'.parent = rehomed h p (kids x) [old] ∧
      Linked N attr h' (update (update kids x []) p
        (substitute (kids x) old (kids p))) := by
  have hpar : h.parent old = some p := ((hl.mem p old).mp hold).1
  have hxold : x ≠ old := by
    rintro rfl
    rw [hl.fragment x htype] at hpar
    cases hpar
  have hoth : ∀ {q}, q ≠ p → old ∉ kids q := hl.notMem_of_ne hold
  have href : ∀ r ∈ some old, r ∈ kids p := by simpa using hold
  obtain ⟨h₁, hins, hpar₁, hl₁⟩ :=
    insert_fragment hl htype hpx (fun _ => href) fun hkids => absurd hkids hsome
  obtain ⟨h', hrem, hpar', hl'⟩ := removeChild_of_mem (x := old) (p := p) hl₁ (by
    rw [update_self, mem_placeBefore]
    exact .inr hold)
  have hcall : insertBefore N h p (some x) (some old) = insert N h p x (some old) := by
    rw [insertBefore, if_neg hown, if_neg (by simpa using hpar),
      if_neg fun heq => hxold (Option.some.inj heq).symm, if_neg hpx]
  refine ⟨h', ?_, ?_, ?_⟩
  · simp [replace, if_pos htype, hcall, hins, hrem]
  · funext y
    simp [hpar', hpar₁, rehomed]
  convert hl' using 2 with q
  by_cases hq : q = p
  · subst hq
    rw [update_self, update_self, erase_placeBefore hold (hoth hpx.symm)]
  · rw [update_of_ne hq, update_of_ne hq]
    by_cases hqx : q = x
    · rw [hqx, update_self, erase_nil]
    · rw [update_of_ne hqx, erase_of_not_mem (hoth hq)]

/-- A fragment without children and an attribute are not put in the place of each other. -/
theorem replace_refused (hl : Linked N attr h kids) (hpx : p ≠ x) (hne : x ≠ old)
    (hown : ¬(N.owner x ≠ N.owner p ∧ N.owner x ≠ some p)) (hpar : h.parent old = some p)
    (hold : attr old ∨ N.nodeType x = .documentFragment ∧ kids x = []) :
    ∃ h', replace N h p x old = some (h', .error .notFound) := by
  have hcall : insertBefore N h p (some x) (some old) = insert N h p x (some old) := by
    rw [insertBefore, if_neg hown, if_neg (by simpa using hpar),
      if_neg fun heq => hne (Option.some.inj heq).symm, if_neg hpx]
  by_cases htype : N.nodeType x = .documentFragment
  · simp only [replace, if_pos htype, hcall]
    by_cases hx : kids x = []
    · -- the children are lost, and the old one is not found
      have hfrs : h.first x = none := by rw [hl.first_eq, hx]; rfl
      refine ⟨(h.setFirst x none).setFirst p none, ?_⟩
      simp [insert_empty htype hfrs, removeChild, Links.setFirst, before_none]
    have hattr := hold.resolve_right fun h => hx h.2
    by_cases hp : kids p = []
    · have href : kids p ≠ [] → ∀ r ∈ some old, r ∈ kids p := fun h => absurd hp h
      obtain ⟨h₁, hins, -, hl₁⟩ := insert_fragment hl htype hpx href fun _ => hp
      have hnot := fun hmem => ((hl₁.mem p old).mp hmem).2 hattr
      exact ⟨h₁, by simp [hins, removeChild_of_notMem hl₁ hnot]⟩
    · obtain ⟨h₁, hins⟩ := insert_of_attr hl hpx hattr (.inr (by rwa [others, if_pos htype]))
        fun _ => hx
      exact ⟨h₁, by simp [hins]⟩
  · have hattr := hold.resolve_right fun h => htype h.1
    simp only [replace, if_neg htype]
    by_cases hx : attr x
    · exact ⟨h, by rw [detach_of_attr hl hx]⟩
    · obtain ⟨h₁, hdet, -, hl₁⟩ := detach_eq hl hx
      have hnot : old ∉ (kids p).erase x := fun hmem => ((hl₁.mem p old).mp hmem).2 hattr
      have hloop := before_eq_none (hl₁.chain p) hnot (Seg.length_le (hl₁.chain p))
      have hfst : h₁.first p ≠ some old := by
        intro heq
        rw [hl₁.first_eq p] at heq
        exact hnot (mem_of_mem_head? heq)
      exact ⟨h₁, by simp [hdet, exchange, if_neg hfst, hloop]⟩

/-! ### The calls -/

/-- A fragment without children is to be inserted, and there are children to lose. -/
def Loses (N : Nodes I) (h : Links I) (p : I) (newChild : Option I) : Prop :=
  ∃ x ∈ newChild, N.nodeType x = .documentFragment ∧ h.first x = none ∧ h.first p ≠ none

/-- What a call does to the parents: nodes lose their parent, and the new child, or its
children, get a new one. -/
def Moves (h h' : Links I) (p : I) (newChild : Option I) : Prop :=
  ∀ y, h'.parent y = h.parent y ∨ h'.parent y = none ∨
    h'.parent y = some p ∧ ∃ x ∈ newChild, p ≠ x ∧ (y = x ∨ h.parent y = some x)

omit [Fintype I] in
theorem moves_of_parent {newChild : Option I} (hpar : h'.parent = rehomed h p new gone)
    (hnew : ∀ y ∈ new, ∃ x ∈ newChild, p ≠ x ∧ (y = x ∨ h.parent y = some x)) :
    Moves h h' p newChild := by
  intro y
  rw [hpar, rehomed]
  split_ifs with hg hn
  · exact .inr (.inl rfl)
  · exact .inr (.inr ⟨rfl, hnew y hn⟩)
  · exact .inl rfl

def Leaves (N : Nodes I) (attr : I → Prop) (h : Links I) (p : I) (newChild : Option I)
    (o : Outcome I) (l : List I) : Prop :=
  ∃ h' res kids', o = some (h', res) ∧ Linked N attr h' kids' ∧ Moves h h' p newChild ∧
    ∀ y, res = .ok y → kids' p = l ∧
      ∀ x ∈ newChild, N.nodeType x = .documentFragment → kids' x = []

/-- The children that `insertBefore` is to leave. -/
def inserted (N : Nodes I) (kids : I → List I) (p x : I) (ref : Option I) : List I :=
  if ref = some x then kids p
  else if N.nodeType x = .documentFragment then placeBefore (kids x) ref (kids p)
  else placeBefore [x] ref ((kids p).erase x)

/-- The children that `replaceChild` is to leave. -/
def replaced (N : Nodes I) (kids : I → List I) (p x old : I) : List I :=
  if x = old then kids p
  else if N.nodeType x = .documentFragment then substitute (kids x) old (kids p)
  else substitute [x] old ((kids p).erase x)

section

variable (hl : Linked N attr h kids)
include hl

omit [DecidableEq I] [Fintype I] in
theorem eq_nil_of_not_loses (hlos : ¬Loses N h p (some x))
    (htype : N.nodeType x = .documentFragment) (hx : kids x = []) : kids p = [] := by
  by_contra hp
  refine hlos ⟨x, rfl, htype, ?_, ?_⟩
  · rw [hl.first_eq, hx]
    rfl
  · rw [hl.first_eq]
    simpa using hp

omit [DecidableEq I] [Fintype I] in
theorem leaves_error (p : I) (newChild : Option I) (e : DOMException) (l : List I) :
    Leaves N attr h p newChild (some (h, .error e)) l :=
  ⟨h, .error e, kids, rfl, hl, fun _ => .inl rfl, fun _ => nofun⟩

omit [DecidableEq I] [Fintype I] in
theorem leaves_same (hx : h.parent x = some p) : Leaves N attr h p (some x) (some (h, .ok y))
    (kids p) := by
  refine ⟨h, .ok y, kids, rfl, hl, fun _ => .inl rfl, fun _ _ => ⟨rfl, ?_⟩⟩
  rintro x' ⟨⟩ htype
  rw [hl.fragment x htype] at hx
  cases hx

omit hl [Fintype I] in
theorem leaves_ok {o : Outcome I} {K : I → List I} (hpx : p ≠ x)
    (hcall : ∃ h', o = some (h', .ok y) ∧ h'.parent = rehomed h p new gone ∧
      Linked N attr h' (update K p l)) (hnew : ∀ z ∈ new, z = x ∨ h.parent z = some x)
    (hK : N.nodeType x = .documentFragment → K x = []) : Leaves N attr h p (some x) o l := by
  obtain ⟨h', ho, hpar, hl'⟩ := hcall
  refine ⟨h', .ok y, _, ho, hl', moves_of_parent hpar fun z hz => ?_, fun _ _ => ⟨?_, ?_⟩⟩
  · exact ⟨x, rfl, hpx, hnew z hz⟩
  · rw [update_self]
  · rintro x' ⟨⟩ htype
    rw [update_of_ne (Ne.symm hpx), hK htype]

theorem insertBefore_spec (hlos : ¬Loses N h p (some x)) (hattr : ∀ r ∈ ref, ¬attr r) :
    Leaves N attr h p (some x) (insertBefore N h p (some x) ref) (inserted N kids p x ref) := by
  rw [insertBefore]
  split_ifs with hown href hsame hpx
  · exact leaves_error hl ..
  · exact leaves_error hl ..
  · rw [inserted, if_pos hsame]
    exact leaves_same hl (not_not.mp fun hne => href ⟨x, hsame, hne⟩)
  · exact leaves_error hl ..
  have hkids : ∀ r ∈ ref, r ∈ kids p := fun r hr =>
    (hl.mem p r).mpr ⟨not_not.mp fun hne => href ⟨r, hr, hne⟩, hattr r hr⟩
  rw [inserted, if_neg hsame]
  by_cases htype : N.nodeType x = .documentFragment
  · rw [if_pos htype]
    exact leaves_ok hpx
      (insert_fragment hl htype hpx (fun _ => hkids) (eq_nil_of_not_loses hl hlos htype))
        (fun z hz => .inr ((hl.mem x z).mp hz).1)
      fun _ => update_self ..
  · rw [if_neg htype]
    by_cases hx : attr x
    · simp only [insert, if_neg htype, detach_of_attr hl hx]
      exact leaves_error hl ..
    · exact leaves_ok hpx (insert_node hl htype hx (fun _ => hkids) hsame) (by simp)
        (absurd · htype)

theorem removeChild_spec (p x : I) :
    Leaves N attr h p none (removeChild h p (some x)) ((kids p).erase x) := by
  by_cases hx : x ∈ kids p
  · obtain ⟨h', hcall, hpar, hl'⟩ := removeChild_of_mem hl hx
    exact ⟨h', _, _, hcall, hl', moves_of_parent hpar nofun, fun _ _ => ⟨rfl, nofun⟩⟩
  · rw [removeChild_of_notMem hl hx]
    exact leaves_error hl ..

theorem replaceChild_spec (hlos : ¬Loses N h p (some x)) (hattr : ¬attr old) :
    Leaves N attr h p (some x) (replaceChild N h p (some x) (some old))
      (replaced N kids p x old) := by
  rw [replaceChild]
  split_ifs with hown hpar hne hpx
  · exact leaves_error hl ..
  · exact leaves_error hl ..
  · rw [replaced, if_pos hne]
    exact leaves_same hl (hne ▸ not_not.mp hpar)
  · exact leaves_error hl ..
  have hold : old ∈ kids p := (hl.mem p old).mpr ⟨not_not.mp hpar, hattr⟩
  rw [replaced, if_neg hne]
  by_cases htype : N.nodeType x = .documentFragment
  · have hsome : kids x ≠ [] := by
      intro hkids
      rw [eq_nil_of_not_loses hl hlos htype hkids] at hold
      cases hold
    rw [if_pos htype]
    exact leaves_ok hpx (replace_fragment hl htype hpx hown hold hsome)
      (fun z hz => .inr ((hl.mem x z).mp hz).1)
      fun _ => update_self ..
  · rw [if_neg htype]
    by_cases hx : attr x
    · simp only [replace, if_neg htype, detach_of_attr hl hx]
      exact leaves_error hl ..
    · exact leaves_ok hpx (replace_node hl htype hx hold hne) (by simp) (absurd · htype)

end

/-! ### What calls that return leave -/

omit [DecidableEq I] [Fintype I] in
theorem Leaves.children {newChild : Option I} {o : Outcome I}
    (hs : Leaves N attr h p newChild o l) (ho : o = some (h', .ok y)) : Children h' p l ∧
      ∀ x ∈ newChild, N.nodeType x = .documentFragment → Children h' x [] := by
  obtain ⟨h₁, res, kids', heq, hl', -, hlist⟩ := hs
  cases heq.symm.trans ho
  obtain ⟨hkids, hfra⟩ := hlist y rfl
  exact ⟨hkids ▸ hl'.chain p, fun x hx htype => hfra x hx htype ▸ hl'.chain x⟩

/-- `insertBefore` gets past its checks, and returns without having done what it is to do: the new
child is a fragment without children, and there are children to lose, or the node to insert before
is an attribute, and there are no children that it could be missed among. -/
def Misplaces (N : Nodes I) (attr : I → Prop) (h : Links I) (kids : I → List I) (p x : I)
    (ref : Option I) : Prop :=
  (¬(N.owner x ≠ N.owner p ∧ N.owner x ≠ some p) ∧ (∀ r ∈ ref, h.parent r = some p) ∧
    ref ≠ some x ∧ p ≠ x) ∧
  (N.nodeType x = .documentFragment ∧ kids x = [] ∧ kids p ≠ [] ∨
    (∃ r ∈ ref, attr r) ∧ ¬attr x ∧ others N kids p x = [])

/-- What `insertBefore` is to leave, if it returns. -/
def InsertsRight (N : Nodes I) (h : Links I) (kids : I → List I) (p x : I)
    (ref : Option I) : Prop :=
  ∀ h' y, insertBefore N h p (some x) ref = some (h', .ok y) →
    Children h' p (inserted N kids p x ref) ∧ (∀ r ∈ ref, r ≠ x → r ∈ kids p) ∧
      (N.nodeType x = .documentFragment → Children h' x [])

/-- Without children that it could be missed among, the node to insert before is not looked for. -/
theorem insert_ok_of_others_nil (hl : Linked N attr h kids) {ref : Option I} (hpx : p ≠ x)
    (hne : ref ≠ some x) (hxa : ¬attr x) (hp : others N kids p x = []) :
    ∃ h', insert N h p x ref = some (h', .ok x) := by
  rw [others] at hp
  split_ifs at hp with htype
  · have href : kids p ≠ [] → ∀ r ∈ ref, r ∈ kids p := fun hsome => absurd hp hsome
    obtain ⟨h', hins, -⟩ := insert_fragment hl htype hpx href fun _ => hp
    exact ⟨h', hins⟩
  · obtain ⟨h', hins, -⟩ := insert_node hl htype hxa (fun hsome => absurd hp hsome) hne
    exact ⟨h', hins⟩

theorem InsertsRight.not_misplaces {ref : Option I} (hright : InsertsRight N h kids p x ref)
    (hl : Linked N attr h kids) : ¬Misplaces N attr h kids p x ref := by
  rintro ⟨⟨hown, hpar, hne, hpx⟩, hbad⟩
  have hcall : insertBefore N h p (some x) ref = insert N h p x ref := by
    have href : ¬∃ r ∈ ref, h.parent r ≠ some p := fun ⟨r, hr, hnot⟩ => hnot (hpar r hr)
    rw [insertBefore, if_neg hown, if_neg href, if_neg hne, if_neg hpx]
  rw [InsertsRight, hcall] at hright
  rcases hbad with ⟨htype, hx, hp⟩ | ⟨⟨r, hr, hattr⟩, hxa, hp⟩
  · -- the children are lost
    have hfrs : h.first x = none := by rw [hl.first_eq, hx]; rfl
    obtain ⟨hch, -⟩ := hright _ x (insert_empty htype hfrs)
    rw [inserted, if_neg hne, if_pos htype, hx, placeBefore_nil, Children,
      show ((h.setFirst x none).setFirst p none).first p = none from update_self ..] at hch
    exact hp hch.eq_nil
  · obtain ⟨h', hins⟩ := insert_ok_of_others_nil hl hpx hne hxa hp
    have hrx : r ≠ x := by
      rintro rfl
      exact hne hr
    exact ((hl.mem p r).mp ((hright h' x hins).2.1 r hr hrx)).2 hattr

theorem insertsRight_of_not_misplaces (hl : Linked N attr h kids) {ref : Option I}
    (hgood : ¬Misplaces N attr h kids p x ref) : InsertsRight N h kids p x ref := by
  intro h' y hret
  have hret' := hret
  rw [insertBefore] at hret'
  split_ifs at hret' with hown href hsame hpx
  · cases hret'
  · cases hret'
  · cases hret'
    have hkids := leaves_same (y := x) hl (not_not.mp fun hne => href ⟨x, hsame, hne⟩)
    obtain ⟨hch, hfra⟩ := hkids.children rfl
    rw [inserted, if_pos hsame]
    exact ⟨hch, fun r hr hrx => absurd (Option.some.inj (hr.symm.trans hsame)) hrx, hfra x rfl⟩
  · cases hret'
  have hpar : ∀ r ∈ ref, h.parent r = some p :=
    fun r hr => not_not.mp fun hne => href ⟨r, hr, hne⟩
  have hbad := fun hbad => hgood ⟨⟨hown, hpar, hsame, hpx⟩, hbad⟩
  have hsome : N.nodeType x = .documentFragment → kids x = [] → kids p = [] :=
    fun htype hx => by_contra fun hp => hbad (.inl ⟨htype, hx, hp⟩)
  -- an attribute would not have been found
  have hattr : ∀ r ∈ ref, ¬attr r := by
    rintro r rfl hattr
    have hx : attr x ∨ others N kids p x ≠ [] := by
      by_contra hx
      obtain ⟨hxa, hp⟩ := not_or.mp hx
      exact hbad (.inr ⟨⟨r, rfl, hattr⟩, hxa, not_not.mp hp⟩)
    obtain ⟨h₁, hins⟩ := insert_of_attr hl hpx hattr hx fun htype hkids => by
      rw [others, if_pos htype, hsome htype hkids] at hx
      exact hx.elim (fun hxa => hl.attached x hxa (hl.fragment x htype)) (absurd rfl)
    rw [hins] at hret'
    cases hret'
  have hlos : ¬Loses N h p (some x) := by
    rintro ⟨_, ⟨⟩, htype, hx, hp⟩
    rw [hl.first_eq] at hx hp
    exact hp (by rw [hsome htype (head?_eq_none_iff.mp hx)]; rfl)
  obtain ⟨hch, hfra⟩ := (insertBefore_spec hl hlos hattr).children hret
  exact ⟨hch, fun r hr _ => (hl.mem p r).mpr ⟨hpar r hr, hattr r hr⟩, hfra x rfl⟩

/-- A fragment without children, and an attribute in the place of the old child, are refused. -/
theorem replaceChild_children (hl : Linked N attr h kids) {old : I}
    (hcall : replaceChild N h p (some x) (some old) = some (h', .ok y)) :
    Children h' p (replaced N kids p x old) ∧
      (N.nodeType x = .documentFragment → Children h' x []) := by
  by_cases hbad : attr old ∨ N.nodeType x = .documentFragment ∧ kids x = []
  · rw [replaceChild] at hcall
    split_ifs at hcall with hown hpar hne hpx
    · cases hcall
    · cases hcall
    · cases hcall
      obtain ⟨hch, hfra⟩ := (leaves_same (y := x) hl (hne ▸ not_not.mp hpar)).children rfl
      rw [replaced, if_pos hne]
      exact ⟨hch, hfra x rfl⟩
    · cases hcall
    · obtain ⟨h₁, href⟩ := replace_refused hl hpx hne hown (not_not.mp hpar) hbad
      rw [href] at hcall
      cases hcall
  · obtain ⟨hold, hfra⟩ := not_or.mp hbad
    have hlos : ¬Loses N h p (some x) := by
      rintro ⟨_, ⟨⟩, htype, hx, -⟩
      rw [hl.first_eq] at hx
      exact hfra ⟨htype, head?_eq_none_iff.mp hx⟩
    obtain ⟨hkids, hfra⟩ := (replaceChild_spec hl hlos hold).children hcall
    exact ⟨hkids, hfra x rfl⟩

/-- **The children after calls that return** are without the new child and with it, or the children
of the fragment, where they are to be, and a fragment is left empty, unless `insertBefore` is called
with a fragment without children or with an attribute to insert before. -/
theorem child_lists (N : Nodes I) (attr : I → Prop) (h : Links I) (kids : I → List I)
    (hl : Linked N attr h kids) (p : I) :
    (∀ x ref, InsertsRight N h kids p x ref ↔ ¬Misplaces N attr h kids p x ref) ∧
    (∀ x h' y, removeChild h p (some x) = some (h', .ok y) →
      Children h' p ((kids p).erase x)) ∧
    ∀ x old h' y, replaceChild N h p (some x) (some old) = some (h', .ok y) →
      Children h' p (replaced N kids p x old) ∧
        (N.nodeType x = .documentFragment → Children h' x []) := by
  refine ⟨fun x ref => ?_, fun x h' y hcall => ?_, fun x old h' y => replaceChild_children hl⟩
  · exact ⟨fun hright => hright.not_misplaces hl, insertsRight_of_not_misplaces hl⟩
  · exact ((removeChild_spec hl p x).children hcall).1

/-- The nodes of a small document: an element, two texts and a fragment. -/
def smallDocument : Nodes (Fin 5) where
  nodeType := ![.document, .element, .text, .text, .documentFragment]
  owner := ![none, some 0, some 0, some 0, some 0]

/-- The element has the first text as its child; the second one is inserted before it. -/
theorem child_lists_of_texts : ∃ h', insertBefore smallDocument
    ⟨![none, none, some 1, none, none], fun _ => none, ![none, some 2, none, none, none]⟩ 1
    (some 3) (some 2) = some (h', .ok 3) ∧ Children h' 1 [3, 2] := by
  have hl : Linked smallDocument (fun _ => False)
      ⟨![none, none, some 1, none, none], fun _ => none, ![none, some 2, none, none, none]⟩
      ![[], [2], [], [], []] :=
    ⟨by decide, by decide, fun _ _ => rfl, fun _ hx => hx.elim, by decide⟩
  refine ⟨_, rfl, ?_⟩
  refine (((child_lists _ _ _ _ hl 1).1 3 (some 2)).mpr ?_ _ 3 rfl).1
  rintro ⟨-, ⟨htype, -⟩ | ⟨⟨_, -, hattr⟩, -⟩⟩
  · cases htype
  · exact hattr

/-- A fragment without children is inserted into an element that has a child: the call returns,
and the child is lost. -/
theorem loses_children : ∃ h h', appendChild smallDocument Links.fresh 1 (some 2) =
      some (h, .ok 2) ∧ Children h 1 [2] ∧
    insertBefore smallDocument h 1 (some 4) none = some (h', .ok 4) ∧ Children h' 1 [] := by
  refine ⟨_, _, rfl, ?_, rfl, ?_⟩
  · decide
  · decide

end AbstractContainerNode

end Poco.XML
