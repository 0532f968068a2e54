import Mathlib.Data.List.Nodup
import Localization.Proofs.Locale.Chain
import Localization.Resolution

namespace Localization

namespace Catalog

variable {c d : Catalog} {b : Bundle} {bs : List Bundle}

/-- Catalogs of an interface with the same bundles are equal. -/
theorem ext_get? (hinterface : c.interface = d.interface) (h : ∀ t, c.get? t = d.get? t) :
    c = d := by
  have hbundles : c.bundles = d.bundles := SortedMap.ext_get? h
  cases c
  cases d
  cases hinterface
  cases hbundles
  rfl

/-! One insertion -/

/-- A bundle of the catalog's interface for a locale without one can be inserted. -/
theorem exists_insert_eq_ok (hinterface : b.interface = c.interface)
    (hget : c.get? b.locale = none) :
    ∃ d, c.insert b = .ok d ∧ d.interface = c.interface ∧
      ∀ t, d.get? t = if t = b.locale then some b else c.get? t := by
  rw [insert, dif_pos hinterface, hget]
  refine ⟨_, rfl, rfl, fun t => ?_⟩
  by_cases ht : t = b.locale
  · rw [if_pos ht, ht]
    exact SortedMap.get?_insert_self c.bundles b.locale b
  · rw [if_neg ht]
    exact SortedMap.get?_insert_of_ne c.bundles ht b

theorem insert_eq_error_iff {error : Error} : c.insert b = .error error ↔
    b.interface ≠ c.interface ∧ error = .foreignBundle c.interface b.interface ∨
      b.interface = c.interface ∧ (c.get? b.locale).isSome ∧
        error = .duplicateLocale c.interface b.locale := by
  by_cases hinterface : b.interface = c.interface
  · cases hget : c.get? b.locale with
    | some found => simpa [insert, hinterface, hget] using eq_comm
    | none => simp [insert, hinterface, hget]
  · simpa [insert, hinterface] using eq_comm

theorem insert_eq_ok_iff : c.insert b = .ok d ↔
    (b.interface = c.interface ∧ c.get? b.locale = none) ∧ d.interface = c.interface ∧
      ∀ t, d.get? t = if t = b.locale then some b else c.get? t := by
  by_cases hfits : b.interface = c.interface ∧ c.get? b.locale = none
  · obtain ⟨inserted, hinsert, hinterface, hget⟩ := exists_insert_eq_ok hfits.1 hfits.2
    rw [hinsert, Except.ok.injEq]
    constructor
    · rintro rfl
      exact ⟨hfits, hinterface, hget⟩
    · rintro ⟨-, hinterface', hget'⟩
      exact ext_get? (hinterface.trans hinterface'.symm) fun t => (hget t).trans (hget' t).symm
  · have hfails : ∃ error, c.insert b = .error error := by
      by_cases hinterface : b.interface = c.interface
      · have htaken : (c.get? b.locale).isSome :=
          Option.isSome_iff_ne_none.2 fun hget => hfits ⟨hinterface, hget⟩
        exact ⟨_, insert_eq_error_iff.2 (.inr ⟨hinterface, htaken, rfl⟩)⟩
      · exact ⟨_, insert_eq_error_iff.2 (.inl ⟨hinterface, rfl⟩)⟩
    obtain ⟨error, herror⟩ := hfails
    refine iff_of_false (fun hinsert => ?_) fun h => hfits h.1
    rw [herror] at hinsert
    cases hinsert

/-- An insertion into a catalog that is changed in place. -/
def insertInPlace (b : Bundle) : EStateM Error Catalog Unit := do
  let c ← get
  let inserted ← ofExcept (c.insert b)
  set inserted

theorem run_insertInPlace (c : Catalog) (b : Bundle) : (insertInPlace b).run c =
    match c.insert b with
    | .ok inserted => .ok () inserted
    | .error error => .error error c := by
  have hrun : (insertInPlace b).run c =
      EStateM.run (ofExcept (c.insert b) >>= set) c := rfl
  rw [hrun]
  cases c.insert b <;> rfl

/-! Insertions one after the other -/

/-- The catalog that is there when the insertion of each bundle has been tried, whether or not it
failed. -/
def afterInsertions (c : Catalog) (bs : List Bundle) : Catalog :=
  bs.foldl (fun c b => match (insertInPlace b).run c with | .ok _ left | .error _ left => left) c

theorem afterInsertions_of_ok (h : c.insert b = .ok d) :
    c.afterInsertions (b :: bs) = d.afterInsertions bs := by
  rw [afterInsertions, List.foldl_cons, run_insertInPlace, h]
  rfl

theorem afterInsertions_of_error {error : Error} (h : c.insert b = .error error) :
    c.afterInsertions (b :: bs) = c.afterInsertions bs := by
  rw [afterInsertions, List.foldl_cons, run_insertInPlace, h]
  rfl

theorem interface_afterInsertions (c : Catalog) (bs : List Bundle) :
    (c.afterInsertions bs).interface = c.interface := by
  induction bs generalizing c with
  | nil => rfl
  | cons b bs ih =>
    cases hinsert : c.insert b with
    | error error => rw [afterInsertions_of_error hinsert, ih]
    | ok d => rw [afterInsertions_of_ok hinsert, ih, (insert_eq_ok_iff.1 hinsert).2.1]

/-- A locale without a bundle gets the first one of the interface for it; nothing else changes. -/
theorem get?_afterInsertions (c : Catalog) (bs : List Bundle) (t : Locale) :
    (c.afterInsertions bs).get? t =
      (c.get? t).or (bs.find? fun b => b.interface = c.interface ∧ b.locale = t) := by
  induction bs generalizing c with
  | nil => simp [afterInsertions]
  | cons b bs ih =>
    cases hinsert : c.insert b with
    | error error =>
      -- What is refused is not found: it is of another interface, or what `c` has comes first.
      rw [afterInsertions_of_error hinsert, ih]
      rcases insert_eq_error_iff.1 hinsert with ⟨hinterface, -⟩ | ⟨hinterface, htaken, -⟩
      · simp [hinterface]
      · by_cases ht : b.locale = t
        · obtain ⟨found, hfound⟩ := Option.isSome_iff_exists.1 htaken
          rw [← ht, hfound]
          rfl
        · simp [ht]
    | ok d =>
      obtain ⟨⟨hinterface, hfree⟩, hinterface', hget⟩ := insert_eq_ok_iff.1 hinsert
      rw [afterInsertions_of_ok hinsert, ih, hget, hinterface']
      by_cases ht : b.locale = t
      · subst ht
        simp [hinterface, hfree]
      · simp [ht, Ne.symm ht]

/-- Insertions that all succeed are of bundles of the interface for as many new locales. -/
theorem foldlM_insert_eq_ok_iff (c d : Catalog) (bs : List Bundle) : bs.foldlM insert c = .ok d ↔
    (∀ b ∈ bs, b.interface = c.interface ∧ c.get? b.locale = none) ∧
      (bs.map (·.locale)).Nodup ∧ d = c.afterInsertions bs := by
  induction bs generalizing c with
  | nil => simpa [afterInsertions, pure, Except.pure] using eq_comm
  | cons b bs ih =>
    rw [List.foldlM_cons, List.forall_mem_cons, List.map_cons, List.nodup_cons]
    cases hinsert : c.insert b with
    | error error =>
      refine iff_of_false (fun h => by cases h) fun ⟨⟨hfits, _⟩, _⟩ => ?_
      obtain ⟨d, hok, -⟩ := exists_insert_eq_ok hfits.1 hfits.2
      rw [hinsert] at hok
      cases hok
    | ok inserted =>
      obtain ⟨hfits, hinterface, hget⟩ := insert_eq_ok_iff.1 hinsert
      -- The rest must be new to the catalog that has `b`: new to `c`, and not for its locale.
      have hfree (a : Bundle) : inserted.get? a.locale = none ↔
          a.locale ≠ b.locale ∧ c.get? a.locale = none := by
        rw [hget]
        by_cases ha : a.locale = b.locale <;> simp [ha]
      have hnew : b.locale ∉ bs.map (·.locale) ↔ ∀ a ∈ bs, a.locale ≠ b.locale := by
        simp [List.mem_map]
      have hrest : (Except.ok inserted >>= fun c => bs.foldlM insert c) =
          bs.foldlM insert inserted := rfl
      rw [hrest, ih inserted, afterInsertions_of_ok hinsert, hinterface, hnew]
      simp only [hfree]
      constructor
      · rintro ⟨hall, hnodup, hd⟩
        exact ⟨⟨hfits, fun a ha => ⟨(hall a ha).1, (hall a ha).2.2⟩⟩,
          ⟨fun a ha => (hall a ha).2.1, hnodup⟩, hd⟩
      · rintro ⟨⟨-, hall⟩, ⟨hne, hnodup⟩, hd⟩
        exact ⟨fun a ha => ⟨(hall a ha).1, hne a ha, (hall a ha).2⟩, hnodup, hd⟩

/-! A catalog of bundles in any order -/

/-- Whether each of the bundles can be inserted, one after the other, into a new catalog. -/
def Compatible (i : Interface) (bs : List Bundle) : Prop :=
  (∀ b ∈ bs, b.interface = i) ∧ (bs.map (·.locale)).Nodup

theorem ofList_eq_ok_iff (i : Interface) (bs : List Bundle) (c : Catalog) :
    ofList i bs = .ok c ↔ Compatible i bs ∧ c = (empty i).afterInsertions bs := by
  have hget (t : Locale) : (empty i).get? t = none := rfl
  simp only [ofList, foldlM_insert_eq_ok_iff, hget, and_true, Compatible, and_assoc]
  exact Iff.rfl

theorem Compatible.perm {i : Interface} {bs bs' : List Bundle} (hperm : bs.Perm bs') :
    Compatible i bs ↔ Compatible i bs' := by
  rw [Compatible, Compatible, (hperm.map _).nodup_iff]
  simp only [hperm.mem_iff]

theorem Compatible.get?_eq_some_iff {i : Interface} {bs : List Bundle} (h : Compatible i bs)
    (t : Locale) (b : Bundle) :
    ((empty i).afterInsertions bs).get? t = some b ↔ b ∈ bs ∧ b.locale = t := by
  have hempty : (empty i).get? t = none := rfl
  rw [get?_afterInsertions, hempty, Option.none_or]
  constructor
  · intro hfind
    have hb := List.find?_some hfind
    exact ⟨List.mem_of_find?_eq_some hfind, (of_decide_eq_true hb).2⟩
  · rintro ⟨hmem, rfl⟩
    have hsome : (bs.find? fun a => a.interface = i ∧ a.locale = b.locale).isSome :=
      List.find?_isSome.2 ⟨b, hmem, decide_eq_true ⟨h.1 b hmem, rfl⟩⟩
    obtain ⟨found, hfound⟩ := Option.isSome_iff_exists.1 hsome
    have hb := List.find?_some hfound
    have hlocale := (of_decide_eq_true hb).2
    obtain rfl : found = b :=
      List.inj_on_of_nodup_map h.2 (List.mem_of_find?_eq_some hfound) hmem hlocale
    exact hfound

/-- The order of the bundles does not matter. -/
theorem Compatible.afterInsertions_eq {i : Interface} {bs bs' : List Bundle} (h : Compatible i bs)
    (hperm : bs.Perm bs') : (empty i).afterInsertions bs' = (empty i).afterInsertions bs := by
  have h' := (Compatible.perm hperm).1 h
  refine ext_get? ?_ fun t => Option.ext fun b => ?_
  · rw [interface_afterInsertions, interface_afterInsertions]
  · rw [h'.get?_eq_some_iff, h.get?_eq_some_iff, hperm.mem_iff]

/-! The order of locales -/

theorem pairwise_locales (c : Catalog) : c.locales.Pairwise fun t u => compare t u = .lt :=
  List.pairwise_map.2 c.bundles.increasing

theorem sublist_locales {c : Catalog} {t u : Locale} (ht : t ∈ c.locales) (hu : u ∈ c.locales)
    (hlt : compare u t = .lt) : [u, t].Sublist c.locales := by
  have hincreasing := pairwise_locales c
  obtain ⟨before, after, heq⟩ := List.append_of_mem hu
  rw [heq] at hincreasing ht ⊢
  have hafter : t ∈ after := by
    rcases List.mem_append.1 ht with hbefore | hafter
    · have hgt := (List.pairwise_append.1 hincreasing).2.2 t hbefore u List.mem_cons_self
      rw [Std.OrientedCmp.gt_of_lt hlt] at hgt
      cases hgt
    · exact (List.mem_cons.1 hafter).resolve_left (SortedMap.ne_of_compare_lt hlt).symm
  exact (List.singleton_sublist.2 hafter).cons_cons u |>.trans (List.sublist_append_right before _)

/-- A catalog can be made of bundles of its interface for different locales, in whatever order they
come, and it is the same catalog for each order: it has the bundles under their locales. Locales are
in a strict total order, and those of a catalog are listed in it, each one after those that it falls
back to. An insertion that fails, for one of two causes, leaves the catalog as it is. -/
theorem ofList_of_perm :
    (∀ i bs, (∃ c, ofList i bs = .ok c) ↔
      (∀ b ∈ bs, b.interface = i) ∧ (bs.map (·.locale)).Nodup) ∧
    (∀ i bs bs', bs.Perm bs' →
      ((∃ c, ofList i bs = .ok c) ↔ ∃ c, ofList i bs' = .ok c) ∧
      ∀ c c', ofList i bs = .ok c → ofList i bs' = .ok c' →
        (∀ t b, c.get? t = some b ↔ b ∈ bs ∧ b.locale = t) ∧
        (∀ t, c'.get? t = c.get? t) ∧ c'.locales = c.locales ∧
        ∀ t, (c'.resolve t).chain = (c.resolve t).chain ∧
          (c'.resolve t).bundles = (c.resolve t).bundles) ∧
    (∀ t u v : Locale, (compare t u = .eq ↔ t = u) ∧ (compare t u = .lt ↔ compare u t = .gt) ∧
      (compare t u = .lt → compare u v = .lt → compare t v = .lt)) ∧
    (∀ c : Catalog, c.locales.Pairwise (compare · · = .lt) ∧
      ∀ t ∈ c.locales, ∀ u ∈ c.locales, u ∈ t.chain → u ≠ t → [u, t].Sublist c.locales) ∧
    ∀ c b error left, (insertInPlace b).run c = .error error left →
      (b.interface ≠ c.interface ∧ error = .foreignBundle c.interface b.interface ∨
        b.interface = c.interface ∧ (c.get? b.locale).isSome ∧
          error = .duplicateLocale c.interface b.locale) ∧
      (∀ t, left.get? t = c.get? t) ∧ left.locales = c.locales ∧ left.size = c.size ∧
      ∀ t, left.resolve t = c.resolve t := by
  refine ⟨fun i bs => ?_, fun i bs bs' hperm => ⟨?_, fun c c' hc hc' => ?_⟩, fun t u v => ?_,
    fun c => ⟨pairwise_locales c, fun t ht u hu hchain hne => ?_⟩,
    fun c b error left hrun => ?_⟩
  · simp [ofList_eq_ok_iff, Compatible]
  · simp [ofList_eq_ok_iff, Compatible.perm hperm]
  · obtain ⟨hcompatible, rfl⟩ := (ofList_eq_ok_iff i bs c).1 hc
    obtain ⟨-, rfl⟩ := (ofList_eq_ok_iff i bs' c').1 hc'
    rw [hcompatible.afterInsertions_eq hperm]
    exact ⟨hcompatible.get?_eq_some_iff, fun t => rfl, rfl, fun t => ⟨rfl, rfl⟩⟩
  · exact ⟨Std.LawfulEqCmp.compare_eq_iff_eq, Std.OrientedCmp.gt_iff_lt.symm, Std.TransCmp.lt_trans⟩
  · exact sublist_locales ht hu (Locale.compare_lt_of_mem_chain hchain hne)
  · rw [run_insertInPlace] at hrun
    cases hinsert : c.insert b with
    | ok inserted =>
      rw [hinsert] at hrun
      cases hrun
    | error cause =>
      rw [hinsert] at hrun
      cases hrun
      exact ⟨insert_eq_error_iff.1 hinsert, fun t => rfl, rfl, rfl, fun t => rfl⟩

/-- Two bundles in either order, one more insertion for the locale of one of them. -/
theorem ofList_of_perm_root_az :
    ∃ root az : Bundle, root.locale = .root ∧ az.locale = { language := "az" } ∧
      ∃ c, ofList ⟨"Messages"⟩ [root, az] = .ok c ∧
      ∃ c', ofList ⟨"Messages"⟩ [az, root] = .ok c' ∧
        c.get? { language := "az" } = some az ∧ c'.locales = c.locales ∧
        [.root, { language := "az" }].Sublist c.locales ∧
        ∃ left, (insertInPlace az).run c =
            .error (.duplicateLocale ⟨"Messages"⟩ { language := "az" }) left ∧
          left.locales = c.locales := by
  obtain ⟨-, hperm, -, horder, hfailed⟩ := ofList_of_perm
  let root : Bundle := ⟨⟨"Messages"⟩, .root, none, .empty⟩
  let az : Bundle := ⟨⟨"Messages"⟩, { language := "az" }, none, .empty⟩
  obtain ⟨c, hc⟩ : ∃ c, ofList ⟨"Messages"⟩ [root, az] = .ok c := ⟨_, rfl⟩
  obtain ⟨c', hc'⟩ : ∃ c, ofList ⟨"Messages"⟩ [az, root] = .ok c := ⟨_, rfl⟩
  obtain ⟨hget, -, hlocales, -⟩ := (hperm ⟨"Messages"⟩ _ _ (.swap az root [])).2 c c' hc hc'
  have haz : c.get? { language := "az" } = some az := (hget _ az).2 ⟨by simp, rfl⟩
  have hroot : c.get? .root = some root := (hget _ root).2 ⟨by simp, rfl⟩
  have hlisted {t : Locale} {b : Bundle} (h : c.get? t = some b) : t ∈ c.locales :=
    (SortedMap.mem_keys_iff c.bundles t).2 (Option.isSome_of_eq_some h)
  have horder := (horder c).2 _ (hlisted haz) _ (hlisted hroot) (by decide) (by decide)
  have hinterface : az.interface = c.interface := (c.belongs _ az haz).2
  have hinsert : c.insert az = .error (.duplicateLocale c.interface az.locale) :=
    insert_eq_error_iff.2 (.inr ⟨hinterface, Option.isSome_of_eq_some haz, rfl⟩)
  have hrun : (insertInPlace az).run c = .error (.duplicateLocale ⟨"Messages"⟩ az.locale) c := by
    rw [run_insertInPlace, hinsert, ← hinterface]
  refine ⟨root, az, rfl, rfl, c, hc, c', hc', haz, hlocales, horder, c, hrun, ?_⟩
  exact (hfailed _ _ _ _ hrun).2.2.1

end Catalog

end Localization
