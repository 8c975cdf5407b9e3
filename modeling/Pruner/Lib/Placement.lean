import Mathlib.Data.List.Rotate
import Mathlib.Data.Nat.Find
import Pruner.Lib.Kmp
import Pruner.Lib.UnorderedMap

/-!
# A word in blocks of letters whose order is not known

A text is made of blocks, and the letters inside a block may come in any order.  `Fits`
says when some arrangement of the blocks shows a word at a position: the letters of the
word that fall on a block have to be among the letters of that block.  The place where a
search first finds the word, and the items it finds there, are then the same for all
arrangements exactly when the first place where the word fits is covered by blocks of one
item each.

## Main definitions

* `Fits bs w q` — the word can be laid over the blocks from position `q` on.
* `Alone bs q m` — the `m` items from position `q` on are blocks of their own.
* `searchWindow f w t` — where the letters of `t` first show `w`, and the items there.

## Main results

* `fits_iff_exists_arranged` — `Fits` is exactly what some arrangement shows.
* `searchWindow_arranged_iff` — when the search does not depend on the arrangement.
-/

namespace Pruner.Lib

open List Option

variable {i q : ℕ} {α δ : Type*}

/-- The word can be laid over the blocks from position `q` on. -/
def Fits : List (List δ) → List δ → ℕ → Prop
  | [], w, _ => w = []
  | b :: bs, w, q =>
    if b.length ≤ q then Fits bs w (q - b.length)
    else (w.take (b.length - q)).Subperm b ∧ Fits bs (w.drop (b.length - q)) 0

/-- Decided block by block. -/
def decideFits [DecidableEq δ] :
    (bs : List (List δ)) → (w : List δ) → (q : ℕ) → Decidable (Fits bs w q)
  | [], w, _ => inferInstanceAs (Decidable (w = []))
  | b :: bs, w, q =>
    have := decideFits bs w (q - b.length)
    have := decideFits bs (w.drop (b.length - q)) 0
    inferInstanceAs (Decidable (if b.length ≤ q then Fits bs w (q - b.length)
      else (w.take (b.length - q)).Subperm b ∧ Fits bs (w.drop (b.length - q)) 0))

instance [DecidableEq δ] (bs : List (List δ)) (w : List δ) (q : ℕ) : Decidable (Fits bs w q) :=
  decideFits bs w q

/-- For each item, how many items its block has. -/
def blockSizes (bs : List (List α)) : List ℕ := bs.flatMap fun b => replicate b.length b.length

/-- The `m` items from position `q` on are blocks of their own. -/
def Alone (bs : List (List α)) (q m : ℕ) : Prop := ∀ k < m, (blockSizes bs)[q + k]? = some 1

instance (bs : List (List α)) (q m : ℕ) : Decidable (Alone bs q m) :=
  inferInstanceAs (Decidable (∀ k < m, (blockSizes bs)[q + k]? = some 1))

/-! ## Where a word fits -/

theorem prefix_append_iff {w u x : List δ} :
    w <+: u ++ x ↔ w.take u.length <+: u ∧ w.drop u.length <+: x := by
  constructor
  · intro h
    refine ⟨?_, ?_⟩
    · have := h.take u.length
      rwa [take_left] at this
    · have := h.drop u.length
      rwa [drop_left] at this
  · rintro ⟨htake, hdrop⟩
    rcases le_or_gt w.length u.length with hle | hlt
    · rw [take_of_length_le hle] at htake
      exact htake.trans (prefix_append _ _)
    · have heq : w.take u.length = u :=
        htake.eq_of_length (by rw [length_take]; omega)
      rw [← take_append_drop u.length w, heq]
      exact (prefix_append_right_inj u).mpr hdrop

/-- A block shows some letters from position `q` on in one of its orders. -/
theorem exists_perm_prefix_drop {b u : List δ} (hlen : q + u.length ≤ b.length) :
    (∃ b' : List δ, b'.Perm b ∧ u <+: b'.drop q) ↔ u.Subperm b := by
  constructor
  · rintro ⟨b', hperm, hpre⟩
    have hsub : u.Sublist b' := hpre.sublist.trans (drop_sublist q b')
    exact hsub.subperm.trans hperm.subperm
  · rintro ⟨u', hu', hsub⟩
    obtain ⟨r, hr⟩ := hsub.exists_perm_append
    have hrest : b.Perm (u ++ r) := hr.trans (hu'.append_right r)
    have hlenr : q ≤ r.length := by
      have := hrest.length_eq
      rw [length_append] at this
      omega
    refine ⟨r.take q ++ (u ++ r.drop q), ?_, ?_⟩
    · have hswap := perm_append_comm_assoc (r.take q) u (r.drop q)
      rw [take_append_drop] at hswap
      exact hswap.trans hrest.symm
    · have hq : (r.take q).length = q := by rw [length_take]; omega
      have hdrop : (r.take q ++ (u ++ r.drop q)).drop q = u ++ r.drop q := drop_left' hq
      rw [hdrop]
      exact prefix_append _ _

/-- **A word fits exactly where some arrangement shows it.** -/
theorem fits_iff_exists_arranged (bs : List (List δ)) (w : List δ) (q : ℕ) :
    Fits bs w q ↔ ∃ bs', Arranged bs' bs ∧ OccursAt w bs'.flatten q := by
  induction bs generalizing w q with
  | nil =>
    constructor
    · rintro rfl
      exact ⟨[], .nil, nil_prefix⟩
    · rintro ⟨bs', harr, hocc⟩
      cases harr
      rw [OccursAt, flatten_nil, drop_nil, prefix_nil] at hocc
      exact hocc
  | cons b bs ih =>
    rw [Fits]
    split
    · next hle =>
        rw [ih]
        constructor
        · rintro ⟨bs', harr, hocc⟩
          refine ⟨b :: bs', .cons (.refl b) harr, ?_⟩
          rwa [OccursAt, flatten_cons, drop_append, drop_of_length_le hle]
        · rintro ⟨_, harr, hocc⟩
          cases harr with
          | cons hb hbs =>
            refine ⟨_, hbs, ?_⟩
            rwa [OccursAt, flatten_cons, drop_append, hb.length_eq,
              drop_of_length_le (hb.length_eq ▸ hle)] at hocc
    · next hlt =>
        have hbound : q + (w.take (b.length - q)).length ≤ b.length := by
          rw [length_take]
          omega
        rw [ih, ← exists_perm_prefix_drop hbound]
        have hcons : ∀ {b' bs'}, b'.Perm b → (OccursAt w (flatten (b' :: bs')) q ↔
            w.take (b.length - q) <+: b'.drop q ∧
              OccursAt (w.drop (b.length - q)) bs'.flatten 0) := by
          intro b' bs' hb
          have hlen : (b'.drop q).length = b.length - q := by
            rw [length_drop, hb.length_eq]
          have hzero : q - b'.length = 0 := by rw [hb.length_eq]; omega
          rw [OccursAt, flatten_cons, drop_append, hzero, prefix_append_iff, hlen]
          rfl
        constructor
        · rintro ⟨⟨b', hb, hpre⟩, bs', harr, hocc⟩
          exact ⟨b' :: bs', .cons hb harr, (hcons hb).mpr ⟨hpre, hocc⟩⟩
        · rintro ⟨_, harr, hocc⟩
          cases harr with
          | cons hb hbs =>
            obtain ⟨hpre, hocc⟩ := (hcons hb).mp hocc
            exact ⟨⟨_, hb, hpre⟩, _, hbs, hocc⟩

/-! ## Which items an arrangement can move -/

theorem blockSizes_cons (b : List α) (bs : List (List α)) :
    blockSizes (b :: bs) = replicate b.length b.length ++ blockSizes bs :=
  flatMap_cons

variable {b : List α} {bs : List (List α)}

theorem blockSizes_cons_of_lt (h : i < b.length) : (blockSizes (b :: bs))[i]? = some b.length := by
  rw [blockSizes_cons, getElem?_append_left (by simpa using h)]
  simp [h]

theorem blockSizes_cons_of_le (h : b.length ≤ i) :
    (blockSizes (b :: bs))[i]? = (blockSizes bs)[i - b.length]? := by
  rw [blockSizes_cons, getElem?_append_right (by simpa using h), length_replicate]

variable {bs' : List (List α)}

/-- An item that is a block of its own stays where it is. -/
theorem Arranged.getElem?_eq_of_alone (h : Arranged bs' bs)
    (hi : (blockSizes bs)[i]? = some 1) : bs'.flatten[i]? = bs.flatten[i]? := by
  induction h generalizing i with
  | nil => rfl
  | @cons b' b bs' bs hb _ ih =>
    rw [flatten_cons, flatten_cons]
    rcases lt_or_ge i b.length with hlt | hge
    · rw [blockSizes_cons_of_lt hlt, some.injEq] at hi
      obtain ⟨x, rfl⟩ := length_eq_one_iff.mp hi
      rw [perm_singleton.mp hb, getElem?_append_left hlt, getElem?_append_left hlt]
    · rw [blockSizes_cons_of_le hge] at hi
      rw [getElem?_append_right hge, getElem?_append_right (hb.length_eq ▸ hge), hb.length_eq]
      exact ih hi

theorem exists_perm_getElem?_ne (hb : b.Nodup) (hlen : b.length ≠ 1)
    (hi : i < b.length) : ∃ b' : List α, b'.Perm b ∧ b'[i]? ≠ b[i]? := by
  refine ⟨b.rotate 1, rotate_perm b 1, ?_⟩
  rw [getElem?_rotate hi, getElem?_eq_getElem hi,
    getElem?_eq_getElem (Nat.mod_lt _ (by omega)), Ne, some.injEq,
    hb.getElem_inj_iff]
  intro heq
  rcases lt_or_ge (i + 1) b.length with hlt | hge
  · rw [Nat.mod_eq_of_lt hlt] at heq
    omega
  · have hlast : i + 1 = b.length := by omega
    rw [hlast, Nat.mod_self] at heq
    omega

/-- Any other item can be moved away from its position. -/
theorem Arranged.exists_getElem?_ne (h : Arranged bs' bs) (hnodup : ∀ b ∈ bs, b.Nodup)
    (hi : i < bs.flatten.length) (hsize : (blockSizes bs)[i]? ≠ some 1) :
    ∃ bs'', Arranged bs'' bs ∧ bs''.flatten[i]? ≠ bs'.flatten[i]? := by
  induction h generalizing i with
  | nil => simp at hi
  | @cons b' b bs' bs hb hbs ih =>
    rcases lt_or_ge i b.length with hlt | hge
    · rw [blockSizes_cons_of_lt hlt, Ne, some.injEq] at hsize
      have hlt' : i < b'.length := hb.length_eq ▸ hlt
      obtain ⟨b'', hperm, hne⟩ := exists_perm_getElem?_ne
        (hb.nodup_iff.mpr (hnodup b mem_cons_self)) (hb.length_eq ▸ hsize) hlt'
      refine ⟨b'' :: bs', .cons (hperm.trans hb) hbs, ?_⟩
      rwa [flatten_cons, flatten_cons, getElem?_append_left hlt',
        getElem?_append_left (hperm.length_eq ▸ hlt')]
    · rw [blockSizes_cons_of_le hge] at hsize
      have hi' : i - b.length < bs.flatten.length := by
        rw [flatten_cons, length_append] at hi
        omega
      obtain ⟨bs'', harr, hne⟩ := ih (forall_mem_cons.mp hnodup).2 hi' hsize
      refine ⟨b' :: bs'', .cons hb harr, ?_⟩
      have hge' : b'.length ≤ i := hb.length_eq ▸ hge
      rwa [flatten_cons, flatten_cons, getElem?_append_right hge',
        getElem?_append_right hge', hb.length_eq]

theorem Arranged.length_flatten (h : Arranged bs' bs) : bs'.flatten.length = bs.flatten.length := by
  induction h with
  | nil => rfl
  | cons hb _ ih => simp [hb.length_eq, ih]

/-! ## Searching the arrangements -/

variable [DecidableEq δ] (f : α → δ) (w : List δ)

/-- The position at which the letters first show the word, and the items there. -/
def searchWindow (t : List α) : Option (ℕ × List α) :=
  (kmpSearch w (t.map f)).map fun p => (p, (t.drop p).take w.length)

variable {f w}

omit [DecidableEq δ] in
theorem occursAt_map_congr {t t' : List α}
    (h : (t'.drop q).take w.length = (t.drop q).take w.length) :
    OccursAt w (t'.map f) q ↔ OccursAt w (t.map f) q := by
  rw [OccursAt, OccursAt, prefix_iff_eq_take, prefix_iff_eq_take, ← map_drop,
    ← map_drop, ← map_take, ← map_take, h]

theorem Alone.window_eq {m : ℕ} (h : Alone bs q m) (harr : Arranged bs' bs) :
    (bs'.flatten.drop q).take m = (bs.flatten.drop q).take m := by
  refine ext_getElem? fun k => ?_
  rw [getElem?_take, getElem?_take]
  split
  · next hk =>
      rw [getElem?_drop, getElem?_drop]
      exact harr.getElem?_eq_of_alone (h k hk)
  · rfl

omit [DecidableEq δ] in
/-- The word fits where the items of some arrangement show it. -/
theorem fits_map_iff : Fits (bs.map (map f)) w q ↔
      ∃ bs', Arranged bs' bs ∧ OccursAt w (bs'.flatten.map f) q := by
  rw [fits_iff_exists_arranged]
  constructor
  · rintro ⟨ls, harr, hocc⟩
    have hlift : ∃ bs', Arranged bs' bs ∧ bs'.map (map f) = ls := by
      clear hocc
      induction bs generalizing ls with
      | nil =>
        cases harr
        exact ⟨[], .nil, rfl⟩
      | cons b bs ih =>
        cases harr with
        | cons hl hls =>
          obtain ⟨b', hb, rfl⟩ := exists_perm_map hl
          obtain ⟨bs', hbs, rfl⟩ := ih _ hls
          exact ⟨b' :: bs', .cons hb hbs, rfl⟩
    obtain ⟨bs', hbs, rfl⟩ := hlift
    exact ⟨bs', hbs, by rwa [map_flatten]⟩
  · rintro ⟨bs', harr, hocc⟩
    refine ⟨bs'.map (map f), ?_, by rwa [← map_flatten]⟩
    rw [Arranged, forall₂_map_left_iff, forall₂_map_right_iff]
    exact harr.imp fun _ _ h => h.map f

/-- **The search does not depend on the arrangement exactly when the first place where the
word fits, if there is one, is covered by blocks of one item.** -/
theorem searchWindow_arranged_iff (hw : w ≠ []) (hnodup : ∀ b ∈ bs, b.Nodup) :
    (∀ as cs, Arranged as bs → Arranged cs bs →
        searchWindow f w as.flatten = searchWindow f w cs.flatten) ↔
      ∀ q, Fits (bs.map (map f)) w q →
        (∀ i < q, ¬ Fits (bs.map (map f)) w i) → Alone bs q w.length := by
  constructor
  · intro hall q hfit hfirst
    obtain ⟨as, harr, hocc⟩ := fits_map_iff.mp hfit
    have hfound : kmpSearch w (as.flatten.map f) = some q :=
      (kmpSearch_eq_some_iff hw).mpr
        ⟨hocc, fun i hi hoi => hfirst i hi (fits_map_iff.mpr ⟨as, harr, hoi⟩)⟩
    by_contra halone
    obtain ⟨k, hk, hsize⟩ : ∃ k < w.length, (blockSizes bs)[q + k]? ≠ some 1 := by
      simpa [Alone] using halone
    have hlen : q + k < bs.flatten.length := by
      have hle := IsPrefix.length_le hocc
      rw [length_drop, length_map, harr.length_flatten] at hle
      omega
    obtain ⟨cs, hcs, hne⟩ := harr.exists_getElem?_ne hnodup hlen hsize
    have hsame := hall as cs harr hcs
    rw [searchWindow, hfound, map_some] at hsame
    obtain ⟨p, hp, hpair⟩ := map_eq_some_iff.mp hsame.symm
    obtain ⟨rfl, hwin⟩ := Prod.mk.inj hpair
    apply hne
    have hget := congrArg (fun l => l[k]?) hwin
    simpa [getElem?_take, hk, getElem?_drop] using hget
  · intro hcond as cs has hcs
    by_cases hex : ∃ q, Fits (bs.map (map f)) w q
    · classical
      obtain ⟨q, hfit, hfirst⟩ : ∃ q, Fits (bs.map (map f)) w q ∧
          ∀ i < q, ¬ Fits (bs.map (map f)) w i :=
        ⟨Nat.find hex, Nat.find_spec hex, fun i hi => Nat.find_min hex hi⟩
      have halone := hcond q hfit hfirst
      obtain ⟨bs', hbs', hocc⟩ := fits_map_iff.mp hfit
      -- the window at `q` is the same in all arrangements, and nothing comes before it
      have hfound : ∀ ds, Arranged ds bs → searchWindow f w ds.flatten =
          some (q, (bs.flatten.drop q).take w.length) := by
        intro ds hds
        have hwin := halone.window_eq hds
        have hoccs : OccursAt w (ds.flatten.map f) q :=
          (occursAt_map_congr (hwin.trans (halone.window_eq hbs').symm)).mpr hocc
        have hsearch : kmpSearch w (ds.flatten.map f) = some q :=
          (kmpSearch_eq_some_iff hw).mpr
            ⟨hoccs, fun i hi hoi => hfirst i hi (fits_map_iff.mpr ⟨ds, hds, hoi⟩)⟩
        rw [searchWindow, hsearch, map_some, hwin]
      rw [hfound as has, hfound cs hcs]
    · have hnone : ∀ ds, Arranged ds bs → searchWindow f w ds.flatten = none := by
        intro ds hds
        rw [searchWindow, (kmpSearch_eq_none_iff hw).mpr, map_none]
        exact fun i hoi => hex ⟨i, fits_map_iff.mpr ⟨ds, hds, hoi⟩⟩
      rw [hnone as has, hnone cs hcs]

end Pruner.Lib
