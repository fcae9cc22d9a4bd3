import Wings.Lib.FileTree
import Wings.Lib.PathLedger

/-!
# Wings.Lib.TreeWalk — everything below a directory, in depth-first order
-/

namespace Wings.Lib.FileTree

open List PathLedger

variable {ν α δ : Type} {es : List (ν × FileTree ν α δ)}

/-! ## The listing -/

mutual

/-- The entries of a directory at `p` and everything below them. -/
def listing (p : List ν) : List (ν × FileTree ν α δ) → List (List ν × FileTree ν α δ)
  | [] => []
  | e :: es => entryListing p e ++ listing p es

/-- One entry of a directory at `p` and everything below it. -/
def entryListing (p : List ν) : ν × FileTree ν α δ → List (List ν × FileTree ν α δ)
  | (n, t) => (p ++ [n], t) :: underListing (p ++ [n]) t

/-- Everything below what is at `p`. -/
def underListing (p : List ν) : FileTree ν α δ → List (List ν × FileTree ν α δ)
  | .leaf _ => []
  | .dir _ es => listing p es

end

theorem underListing_eq (p : List ν) (t : FileTree ν α δ) : underListing p t = listing p t.entries := by
  cases t with
  | leaf a => rw [underListing, entries, listing]
  | dir d es => rw [underListing, entries]

theorem listing_cons (p : List ν) (n : ν) (t : FileTree ν α δ) (es : List (ν × FileTree ν α δ)) :
    listing p ((n, t) :: es) = (p ++ [n], t) :: (listing (p ++ [n]) t.entries ++ listing p es) := by
  rw [listing, entryListing, underListing_eq, cons_append]

/-! ## Induction -/

/-- Induction on the entries of a directory, each with the entries below it. -/
theorem entries_induction {motive : List (ν × FileTree ν α δ) → Prop} (nil : motive [])
    (cons : ∀ n t es, motive t.entries → motive es → motive ((n, t) :: es)) (es) : motive es :=
  match es with
  | [] => nil
  | (n, .leaf a) :: es => cons n (.leaf a) es nil (entries_induction nil cons es)
  | (n, .dir d sub) :: es =>
    cons n (.dir d sub) es (entries_induction nil cons sub) (entries_induction nil cons es)

/-- No directory below has two entries of one name. -/
inductive DistinctEntries : List (ν × FileTree ν α δ) → Prop
  | nil : DistinctEntries []
  | cons {n t es} : (∀ e ∈ es, e.1 ≠ n) → DistinctEntries t.entries → DistinctEntries es →
      DistinctEntries ((n, t) :: es)

theorem exists_append_of_mem_listing {p : List ν}
    {e : List ν × FileTree ν α δ} (he : e ∈ listing p es) : ∃ s n, e.1 = p ++ s ++ [n] := by
  induction es using entries_induction generalizing p with
  | nil => cases he
  | cons n t es iht ihes =>
    rw [listing_cons, mem_cons, mem_append] at he
    rcases he with rfl | he | he
    · exact ⟨[], n, by simp⟩
    · obtain ⟨s, m, hs⟩ := iht he
      exact ⟨n :: s, m, by rw [hs]; simp⟩
    · exact ihes he

/-- A listing from further down has longer paths and is otherwise the same. -/
theorem listing_append (p q : List ν) (es : List (ν × FileTree ν α δ)) :
    listing (p ++ q) es = (listing q es).map fun e => (p ++ e.1, e.2) := by
  induction es using entries_induction generalizing q with
  | nil => rfl
  | cons n t es iht ihes =>
    rw [listing_cons, listing_cons, ihes, append_assoc, iht]
    simp

section lookup

variable [DecidableEq ν] {M : Type} [AddCommMonoid M] {es : List (ν × FileTree ν α δ)} {u : FileTree ν α δ} {p : List ν}
  {s : List ν}

/-- What is at a path below the entries of a directory; the directory itself is not. -/
def entriesLookup (es : List (ν × FileTree ν α δ)) : List ν → Option (FileTree ν α δ)
  | [] => none
  | n :: s => (entry n es).bind (·.lookup s)

theorem entriesLookup_eq (t : FileTree ν α δ) (hs : s ≠ []) : entriesLookup t.entries s = t.lookup s := by
  cases s with
  | nil => exact absurd rfl hs
  | cons n s => rw [lookup_cons]; rfl

theorem entry_eq_none {n : ν} (h : ∀ e ∈ es, e.1 ≠ n) : entry n es = none := by
  induction es with
  | nil => rfl
  | cons e es ih =>
    rw [entry, if_neg (h e mem_cons_self)]
    exact ih fun e' he' => h e' (mem_cons_of_mem _ he')

theorem entriesLookup_cons_self (n : ν) (t : FileTree ν α δ) (es : List (ν × FileTree ν α δ))
    (s : List ν) : entriesLookup ((n, t) :: es) (n :: s) = t.lookup s := by
  rw [entriesLookup, entry, if_pos rfl]
  rfl

theorem entriesLookup_cons_ne {n m : ν} (hm : m ≠ n) (t : FileTree ν α δ)
    (es : List (ν × FileTree ν α δ)) (s : List ν) :
    entriesLookup ((n, t) :: es) (m :: s) = entriesLookup es (m :: s) := by
  rw [entriesLookup, entry, if_neg (Ne.symm hm)]
  rfl

theorem entriesLookup_eq_none {n : ν} (h : ∀ e ∈ es, e.1 ≠ n) (s : List ν) : entriesLookup es (n :: s) = none := by
  rw [entriesLookup, entry_eq_none h]
  rfl

omit [DecidableEq ν] in
theorem not_concat_prefix_append {n m : ν} (hm : m ≠ n) : ¬ p ++ [n] <+: p ++ m :: s := by
  rw [prefix_append_right_inj, cons_prefix_cons]
  exact fun h => hm h.1.symm

variable {e : ν × FileTree ν α δ}

theorem DistinctEntries.of_mem (hd : DistinctEntries es)
    (he : e ∈ es) : entry e.1 es = some e.2 ∧ DistinctEntries e.2.entries := by
  induction hd with
  | nil => cases he
  | @cons n t es hn ht _ _ ihes =>
    rcases mem_cons.mp he with rfl | he
    · exact ⟨if_pos rfl, ht⟩
    · obtain ⟨hentry, hsub⟩ := ihes he
      exact ⟨by rw [entry, if_neg (Ne.symm (hn e he)), hentry], hsub⟩

variable {t : FileTree ν α δ} {P : List (List ν)}

theorem DistinctEntries.lookup (hd : DistinctEntries t.entries)
    (hp : t.lookup p = some u) : DistinctEntries u.entries := by
  induction p generalizing t with
  | nil => cases hp; exact hd
  | cons n p ih =>
    rw [lookup_cons, Option.bind_eq_some_iff] at hp
    obtain ⟨c, hc, hp⟩ := hp
    exact ih (hd.of_mem (mem_of_entry hc)).2 hp

/-- The listing has exactly what can be looked up. -/
theorem mem_listing_iff (hd : DistinctEntries es) : (p ++ s, u) ∈ listing p es ↔ entriesLookup es s = some u := by
  induction hd generalizing p s with
  | nil => rw [listing]; cases s <;> simp [entriesLookup, entry]
  | @cons n t es hn _ _ iht ihes =>
    rw [listing_cons, mem_cons, mem_append, ihes]
    cases s with
    | nil =>
      refine ⟨?_, fun h => by cases h⟩
      rintro (heq | hmem | hrest)
      · simp at heq
      · obtain ⟨s, m, hs⟩ := exists_append_of_mem_listing hmem
        have hlen := congrArg length hs
        simp only [length_append, length_nil, length_singleton] at hlen
        omega
      · cases hrest
    | cons m s =>
      by_cases hm : m = n
      · subst hm
        have hpath : p ++ m :: s = p ++ [m] ++ s := by simp
        rw [entriesLookup_eq_none hn, entriesLookup_cons_self, hpath, iht]
        cases s with
        | nil => simp [entriesLookup, eq_comm]
        | cons k s => simp [entriesLookup_eq t (cons_ne_nil k s)]
      · have hpre : ¬ p ++ [n] <+: p ++ m :: s := not_concat_prefix_append hm
        rw [entriesLookup_cons_ne hm]
        refine ⟨?_, fun h => .inr (.inr h)⟩
        rintro (heq | hmem | hrest)
        · exact absurd ((Prod.mk.inj heq).1 ▸ prefix_rfl) hpre
        · obtain ⟨r, k, hr⟩ := exists_append_of_mem_listing hmem
          have hbelow : p ++ [n] <+: p ++ m :: s := ⟨r ++ [k], by rw [← append_assoc, ← hr]⟩
          exact absurd hbelow hpre
        · exact hrest

theorem listing_sublist_of_entry {n : ν} {c : FileTree ν α δ} (h : entry n es = some c) (p : List ν) :
    (listing (p ++ [n]) c.entries).Sublist (listing p es) := by
  induction es with
  | nil => cases h
  | cons e es ih =>
    obtain ⟨m, v⟩ := e
    rw [listing_cons]
    rw [entry] at h
    split_ifs at h with hm
    · cases h
      rw [show m = n from hm]
      exact (sublist_append_left _ _).cons _
    · exact (sublist_append_of_sublist_right (ih h)).cons _

theorem listing_sublist (h : t.lookup s = some u) : (listing (p ++ s) u.entries).Sublist (listing p t.entries) := by
  induction s generalizing t p with
  | nil => cases h; rw [append_nil]
  | cons n s ih =>
    rw [lookup_cons, Option.bind_eq_some_iff] at h
    obtain ⟨c, hc, h⟩ := h
    have hpath : p ++ n :: s = p ++ [n] ++ s := by simp
    rw [hpath]
    exact (ih h).trans (listing_sublist_of_entry hc p)

/-! ## What two trees share -/

/-- What a node holds itself. -/
def datum : FileTree ν α δ → α ⊕ δ
  | .leaf a => .inl a
  | .dir d _ => .inr d

/-- What can be seen of a node at `p` when what is at the paths `P` is covered: what it holds, and
the names of its entries with what they hold. -/
def face (P : List (List ν)) (p : List ν) (t : FileTree ν α δ) : (α ⊕ δ) × List (ν × (α ⊕ δ)) :=
  (t.datum, (t.entries.filter fun e => p ++ [e.1] ∉ P).map fun e => (e.1, e.2.datum))

def covered (P : List (List ν)) (p : List ν) (t : FileTree ν α δ) : List (ν × FileTree ν α δ) :=
  t.entries.filter fun e => p ++ [e.1] ∈ P

theorem mem_covered : e ∈ covered P p t ↔ e ∈ t.entries ∧ p ++ [e.1] ∈ P := by
  rw [covered, mem_filter, decide_eq_true_iff]

/-- The two trees differ at most at and below the paths `P`. -/
def SameOutside (P : List (List ν)) (t u : FileTree ν α δ) : Prop :=
  ∀ p, (∀ d ∈ P, ¬ d <+: p) → (t.lookup p).map (face P p) = (u.lookup p).map (face P p)

omit [DecidableEq ν] in
theorem isDir_of_datum_eq (h : t.datum = u.datum) : t.isDir = u.isDir := by
  cases t <;> cases u <;> simp_all [datum, isDir]

/-- What is outside is the same node, apart from its entries. -/
theorem SameOutside.lookup {v : FileTree ν α δ} (h : SameOutside P t u)
    (hp : ∀ d ∈ P, ¬ d <+: p) (hv : u.lookup p = some v) :
    ∃ w, t.lookup p = some w ∧ face P p w = face P p v := by
  have hface := h p hp
  rw [hv, Option.map_some, Option.map_eq_some_iff] at hface
  exact hface

theorem SameOutside.symm (h : SameOutside P t u) : SameOutside P u t :=
  fun p hp => (h p hp).symm

/-- The entries of a node add up to those that are covered and those that its face shows. -/
theorem sum_entries_eq (P : List (List ν)) (p : List ν) (g : α ⊕ δ → M) (t : FileTree ν α δ) :
    (t.entries.map fun e => g e.2.datum).sum =
      ((covered P p t).map fun e => g e.2.datum).sum + ((face P p t).2.map fun e => g e.2).sum := by
  rw [covered, face]
  induction t.entries with
  | nil => simp
  | cons e es ih =>
    by_cases he : p ++ [e.1] ∈ P
    · simp [he, ih, add_assoc]
    · simp [he, ih, add_left_comm]

/-! ## Ledgers of a listing -/

variable (g : FileTree ν α δ → M)

/-- Every entry charged to its own path. -/
def charged (l : List (List ν × FileTree ν α δ)) : PathLedger ν M := l.map fun e => (e.1, g e.2)

/-- Every entry charged to the directory it is in. -/
def chargedParent (l : List (List ν × FileTree ν α δ)) : PathLedger ν M :=
  l.map fun e => (e.1.dropLast, g e.2)

variable (e : List ν × FileTree ν α δ) (l : List (List ν × FileTree ν α δ))

/-- What a listing charges at `p ++ s`, if every entry of a directory is charged to `place`, which is at or below
it. -/
theorem own_map_listing_cons (place : List ν → List ν) (hplace : ∀ q n, q <+: place (q ++ [n])) (p : List ν) (n : ν)
    (t : FileTree ν α δ) (es : List (ν × FileTree ν α δ)) (s : List ν) :
    own ((listing p ((n, t) :: es)).map fun e => (place e.1, g e.2)) (p ++ s) =
      (if place (p ++ [n]) = p ++ s then g t else 0) +
        ((if s.head? = some n then
            own ((listing (p ++ [n]) t.entries).map fun e => (place e.1, g e.2)) (p ++ [n] ++ s.tail)
          else 0) + own ((listing p es).map fun e => (place e.1, g e.2)) (p ++ s)) := by
  rw [listing_cons, map_cons, own_cons, map_append, own_append]
  congr 2
  split_ifs with hn
  · obtain ⟨s, rfl⟩ := head?_eq_some_iff.mp hn
    simp
  · refine sum_eq_zero fun x hx => ?_
    simp only [map_map, mem_map, Function.comp_apply] at hx
    obtain ⟨e, he, rfl⟩ := hx
    obtain ⟨s', m, hs⟩ := exists_append_of_mem_listing he
    refine if_neg fun heq => hn ?_
    have hle : p ++ [n] <+: p ++ s := by
      rw [← heq, hs]
      exact (prefix_append _ s').trans (hplace _ m)
    obtain ⟨s', rfl⟩ := (prefix_append_right_inj p).mp hle
    rfl

/-- **Every entry is charged once.** -/
theorem own_charged_listing (hd : DistinctEntries es) (p s : List ν) :
    own (charged g (listing p es)) (p ++ s) = ((entriesLookup es s).map g).getD 0 := by
  unfold charged
  induction hd generalizing p s with
  | nil => cases s <;> rfl
  | @cons n t es hn _ _ iht ihes =>
    rw [own_map_listing_cons g (fun q => q) (fun q n => prefix_append q [n]), ihes, iht]
    cases s with
    | nil => simp [entriesLookup]
    | cons m s =>
      by_cases hm : m = n
      · subst hm
        rw [entriesLookup_eq_none hn, entriesLookup_cons_self]
        cases s with
        | nil => simp [entriesLookup]
        | cons k s => simp [entriesLookup_eq t (cons_ne_nil k s)]
      · rw [entriesLookup_cons_ne hm]
        simp [hm, Ne.symm hm]

/-- **A directory is charged for each of its entries.** -/
theorem own_chargedParent_listing (hd : DistinctEntries es) (p s : List ν) :
    own (chargedParent g (listing p es)) (p ++ s) =
      ((if s = [] then es else ((entriesLookup es s).map entries).getD []).map fun e => g e.2).sum := by
  unfold chargedParent
  induction hd generalizing p s with
  | nil => cases s <;> rfl
  | @cons n t es hn _ _ iht ihes =>
    rw [own_map_listing_cons g dropLast (fun q n => by rw [dropLast_concat]), dropLast_concat, ihes, iht]
    cases s with
    | nil => simp
    | cons m s =>
      by_cases hm : m = n
      · subst hm
        rw [entriesLookup_eq_none hn, entriesLookup_cons_self]
        cases s with
        | nil => simp
        | cons k s => simp [entriesLookup_eq t (cons_ne_nil k s)]
      · rw [entriesLookup_cons_ne hm]
        simp [hm]

end lookup

end Wings.Lib.FileTree
