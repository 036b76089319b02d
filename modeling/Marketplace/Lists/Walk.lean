import Marketplace.Lists.Service

/-!
# Lists.Walk — walking the pages visits everything once

A walk asks for pages with one limit, each with the cursor of the page before, until a page has
none. Rows may come in between two calls with any new ids, also behind the cursor.

`Unread` is what carries the walk: at the cursor `m`, the rows after `m` are still to come and
what has been read is in order up to `m`. Since the row that was looked ahead at is not
deleted, the next page is not empty.
-/

namespace Marketplace.Lists

open Core Auth

/-! ## Walks, while rows come in -/

section

variable {α β : Type} {l : Listing α β}

/-- Rows are inserted and others change, but none is deleted and none becomes visible or
invisible. -/
def Grows (l : Listing α β) (T T' : Table α l.id) : Prop :=
  ∀ row ∈ T.rows, ∃ row' ∈ T'.rows, l.id row' = l.id row ∧ l.visible row' = l.visible row

/-- Between two calls rows come in. -/
def Growing (l : Listing α β) : List (Table α l.id) → Prop
  | [] => True
  | T :: Ts => (∀ T' ∈ Ts.head?, Grows l T T') ∧ Growing l Ts

/-- The pages of a walk that starts at the cursor, one table content for each call. -/
def walk {τ : Type} (call : τ → Option String → Except Thrown (Page β)) :
    Option String → List τ → Except Thrown (List (Page β))
  | _, [] => .ok []
  | cursor, T :: Ts =>
      match call T cursor with
      | .error err => .error err
      | .ok page =>
          match page.nextCursor with
          | none => .ok [page]
          | some next => (walk call (some next) Ts).map (page :: ·)

/-- The last page has no cursor. -/
def Ended (pages : List (Page β)) : Prop :=
  ∃ page, pages.getLast? = some page ∧ page.nextCursor = none

/-- The ids of the items of a walk, in order. -/
def Listing.ids (l : Listing α β) (pages : List (Page β)) : List ℤ :=
  (pages.flatMap Page.items).map l.responseId

variable {dbl : Doubles} {T T' : Table α l.id} {m : Option ℤ}

/-- The marker a cursor stands for. -/
def cursorOf (m : Option ℤ) : Option String := m.map toString

/-- The text of an integer is not empty, so a cursor that was handed out is not taken for none. -/
theorem toString_ne_empty (n : ℤ) : toString n ≠ "" := by
  intro h
  have hzero := JsText.number_toString n
  rw [h] at hzero
  have hn : n = 0 := by
    have hcast : (0 : ℚ) = n := Option.some.inj hzero
    exact_mod_cast hcast.symm
  rw [hn] at h
  exact absurd h (by decide)

/-- A cursor that came with a page is read back as the id it was made of. -/
theorem moreThan_cursorOf (hm : ∀ n ∈ m, |n| ≤ 2 ^ 53) : moreThan dbl (cursorOf m) = some m := by
  cases m with
  | none => rfl
  | some n =>
      have htext : (some (toString n)).filter (fun t => decide (t ≠ "")) = some (toString n) := by
        rw [Option.filter_some, decide_eq_true (toString_ne_empty n), if_pos rfl]
      simp only [moreThan, cursorOf, Option.map_some, htext, JsText.number_toString,
        Option.bind_some, dbl.finite_int (hm n rfl)]
      have hrange : Core.Int8 n := by
        have habs := abs_le.mp (hm n rfl)
        constructor <;> omega
      rw [Rat.num_intCast, if_pos ⟨Rat.den_intCast n, hrange⟩]

theorem mem_selected {row : α} : row ∈ l.selected T m ↔
    row ∈ T.rows ∧ l.visible row = true ∧ m.all (· < l.id row) = true := by
  unfold Listing.selected
  rw [List.mem_mergeSort, List.mem_filter, Bool.and_eq_true]

/-- The selected rows are in order. -/
theorem selected_sorted : (l.selected T m).Pairwise fun a b => l.id a < l.id b := by
  unfold Listing.selected
  generalize hf : T.rows.filter _ = rows
  have hnodup : (rows.map l.id).Nodup := by
    rw [← hf]
    exact T.distinct.sublist ((List.filter_sublist).map l.id)
  have hle : (rows.mergeSort fun a b => decide (l.id a ≤ l.id b)).Pairwise
      fun a b => decide (l.id a ≤ l.id b) = true :=
    List.pairwise_mergeSort (by intro a b c; simpa using le_trans)
      (by intro a b; simpa using le_total _ _) rows
  have hne : ((rows.mergeSort fun a b => decide (l.id a ≤ l.id b)).map l.id).Nodup :=
    ((List.mergeSort_perm rows _).map l.id).nodup_iff.mpr hnodup
  refine (hle.and (List.pairwise_map.mp hne)).imp ?_
  intro a b hab
  exact lt_of_le_of_ne (of_decide_eq_true hab.1) hab.2

/-- In a list in order the last element is the greatest. -/
theorem le_getLast {f : α → ℤ} {rows : List α} {last : α}
    (h : rows.Pairwise fun a b => f a < f b) (hlast : rows.getLast? = some last) :
    ∀ row ∈ rows, f row ≤ f last := by
  obtain ⟨init, rfl⟩ := List.getLast?_eq_some_iff.mp hlast
  intro row hrow
  rcases List.mem_append.mp hrow with hinit | hlast
  · exact ((List.pairwise_append.mp h).2.2 row hinit last List.mem_cons_self).le
  · rw [List.mem_singleton.mp hlast]

/-- The two kinds of page: the last one, with all the rows, and one with as many as the limit
says and the cursor of the last of them. -/
inductive Turned (l : Listing α β) (rest : List α) (limit : ℕ) : Page β → Prop
  | last : rest.length ≤ limit → Turned l rest limit ⟨rest.map l.toResponse, none⟩
  | more {row : α} : limit < rest.length → (rest.take limit).getLast? = some row →
      Turned l rest limit ⟨(rest.take limit).map l.toResponse, some (toString (l.id row))⟩

/-- One call answers with the first `limit` rows behind the cursor, and with a cursor exactly if
there are more. -/
theorem list_turns (orm : TypeOrm) (dbl : Doubles) {limit : ℕ} (hlimit : 1 ≤ limit) (hm : ∀ n ∈ m, |n| ≤ 2 ^ 53) :
    ∃ page, l.list orm dbl T limit (cursorOf m) = .ok page ∧
      Turned l (l.selected T m) limit page := by
  have hfind : (moreThan dbl (cursorOf m)).bind
      (fun bound => orm.take (limit + 1) (l.selected T bound)) =
        some ((l.selected T m).take (limit + 1)) := by
    rw [moreThan_cursorOf hm, Option.bind_some]
    unfold TypeOrm.take
    rw [if_pos (by omega)]
    rfl
  unfold Listing.list
  rw [hfind]
  generalize l.selected T m = rest
  simp only [Listing.respond, List.length_take, slice]
  -- the service reads one row more than it shows, and that row tells it there is a next page
  by_cases hmore : limit < rest.length
  · have hdec : decide ((limit : ℤ) < (min (limit + 1) rest.length : ℕ)) = true := by
      simp only [decide_eq_true_eq]
      omega
    have htake : (rest.take (limit + 1)).take limit = rest.take limit := by
      rw [List.take_take, Nat.min_eq_left (Nat.le_succ _)]
    obtain ⟨row, hrow⟩ : ∃ row, (rest.take limit).getLast? = some row := by
      have hne : rest.take limit ≠ [] := by
        intro hnil
        have hlen := congrArg List.length hnil
        rw [List.length_take, List.length_nil] at hlen
        omega
      exact ⟨_, List.getLast?_eq_some_getLast hne⟩
    refine ⟨_, ?_, .more hmore hrow⟩
    rw [hdec]
    simp only [if_true, if_neg (show ¬ (limit : ℤ) < 0 by omega), Int.toNat_natCast, htake,
      List.getLast?_map, hrow, Option.map_some, l.responseId_eq]
  · have hdec : decide ((limit : ℤ) < (min (limit + 1) rest.length : ℕ)) = false := by
      simp only [decide_eq_false_iff_not]
      omega
    have htake : rest.take (limit + 1) = rest := List.take_of_length_le (by omega)
    refine ⟨_, ?_, .last (Nat.le_of_not_lt hmore)⟩
    rw [hdec, htake]
    rfl

/-! ## From one page to the next -/

/-- What a full page says about the rows after its last id. -/
structure Advance (rest items later : List α) (m : Option ℤ) (m' : ℤ) (id : α → ℤ) : Prop where
  whole : rest = items ++ later
  above : m.all (· < m') = true
  items_le : ∀ row ∈ items, id row ≤ m'
  later_gt : ∀ row ∈ later, m' < id row

/-- A page that ends at `last` advances the walk to `last`: what was shown lies at or below it,
what was not above. -/
theorem advance {limit : ℕ} {last : α}
    (hlast : ((l.selected T m).take limit).getLast? = some last) :
    Advance (l.selected T m) ((l.selected T m).take limit) ((l.selected T m).drop limit) m
      (l.id last) l.id := by
  have hmem : last ∈ (l.selected T m).take limit := List.mem_of_getLast? hlast
  have hsorted : ((l.selected T m).take limit ++ (l.selected T m).drop limit).Pairwise
      fun a b => l.id a < l.id b := by
    rw [List.take_append_drop]
    exact selected_sorted
  rw [List.pairwise_append] at hsorted
  constructor
  · exact (List.take_append_drop ..).symm
  · exact (mem_selected.mp (List.mem_of_mem_take hmem)).2.2
  · exact le_getLast hsorted.1 hlast
  · intro row hrow
    exact hsorted.2.2 last hmem row hrow

/-- A bound that lies below `n` lies below whatever is above `n`. -/
theorem all_lt_trans {n i : ℤ} (hm : m.all (· < n) = true) (hn : n < i) :
    m.all (· < i) = true := by
  cases m with
  | none => rfl
  | some k =>
      have hk : k < n := by simpa using hm
      simpa using hk.trans hn

/-- Behind a later cursor there are no rows that were not behind the earlier one. -/
theorem selected_subset {n : ℤ} (hm : m.all (· < n) = true) :
    l.selected T (some n) ⊆ l.selected T m := by
  intro row hrow
  obtain ⟨hin, hvis, hgt⟩ := mem_selected.mp hrow
  exact mem_selected.mpr ⟨hin, hvis, all_lt_trans hm (by simpa using hgt)⟩

theorem selected_nodup : (l.selected T m).Nodup :=
  selected_sorted.imp fun hlt heq => absurd (congrArg l.id heq) hlt.ne

theorem selected_length_le {n : ℤ} (hm : m.all (· < n) = true) :
    (l.selected T (some n)).length ≤ (l.selected T m).length :=
  (List.subperm_of_subset selected_nodup (selected_subset hm)).length_le

/-- With the same rows, what comes after the page is what was left. -/
theorem selected_length_lt {limit : ℕ} {last : α} (hlimit : 1 ≤ limit)
    (hlast : ((l.selected T m).take limit).getLast? = some last) :
    (l.selected T (some (l.id last))).length < (l.selected T m).length := by
  have hadv := advance hlast
  have hsub : l.selected T (some (l.id last)) ⊆ (l.selected T m).drop limit := by
    intro row hrow
    have hgt := (mem_selected.mp hrow).2.2
    have hgt' : l.id last < l.id row := by simpa using hgt
    have hrest : row ∈ l.selected T m := selected_subset hadv.above hrow
    rw [hadv.whole] at hrest
    rcases List.mem_append.mp hrest with hitem | hlater
    · exact absurd (hadv.items_le row hitem) (not_le.mpr hgt')
    · exact hlater
  have hle := (List.subperm_of_subset selected_nodup hsub).length_le
  have hne : (l.selected T m).take limit ≠ [] := List.ne_nil_of_mem (List.mem_of_getLast? hlast)
  have hpos := List.length_pos_iff.mpr hne
  rw [List.length_drop] at hle
  rw [List.length_take] at hpos
  omega

/-- A row that is still to come is still to come after inserts. -/
theorem Grows.selected (hg : Grows l T T') {row : α} (hrow : row ∈ l.selected T m) {n : ℤ}
    (hn : n < l.id row) : ∃ row' ∈ l.selected T' (some n), l.id row' = l.id row := by
  obtain ⟨hin, hvis, -⟩ := mem_selected.mp hrow
  obtain ⟨row', hin', hid, hvis'⟩ := hg row hin
  refine ⟨row', mem_selected.mpr ⟨hin', hvis'.trans hvis, ?_⟩, hid⟩
  rw [hid]
  simpa using hn

/-! ## The walk -/

/-- What a walk from the marker `m` on shows. -/
structure VisitsFrom (l : Listing α β) (limit : ℕ) (m : Option ℤ) (Ts : List (Table α l.id))
    (pages : List (Page β)) : Prop where
  sizes : ∀ page ∈ pages, page.items.length ≤ limit
  increasing : (l.ids pages).Pairwise (· < ·)
  above : ∀ i ∈ l.ids pages, m.all (· < i) = true
  shown : ∀ p ∈ pages.zip Ts, ∀ item ∈ p.1.items,
    ∃ row ∈ p.2.rows, l.visible row = true ∧ item = l.toResponse row
  complete : Ended pages → ∀ T ∈ Ts.head?, ∀ row ∈ l.selected T m, l.id row ∈ l.ids pages
  nonempty : ∀ page ∈ pages.tail, page.items ≠ []
  first : m ≠ none → ∀ page ∈ pages.head?, page.items ≠ []
  ends : ∀ Us T n, Ts = Us ++ List.replicate n T → (l.selected T m).length < n → Ended pages
  short : pages.length ≤ Ts.length

variable {Ts : List (Table α l.id)} {pages : List (Page β)} {page : Page β}

/-- Every item of a page is the response for a visible row of the table. -/
theorem shown_take {limit : ℕ} : ∀ item ∈ ((l.selected T m).take limit).map l.toResponse,
    ∃ row ∈ T.rows, l.visible row = true ∧ item = l.toResponse row := by
  intro item hitem
  obtain ⟨row, hrow, rfl⟩ := List.mem_map.mp hitem
  obtain ⟨hin, hvis, -⟩ := mem_selected.mp (List.mem_of_mem_take hrow)
  exact ⟨row, hin, hvis, rfl⟩

theorem ids_map (rows : List α) (next : Option String) :
    l.ids [⟨rows.map l.toResponse, next⟩] = rows.map l.id := by
  simp [Listing.ids, Function.comp_def, l.responseId_eq]

theorem ids_cons (rows : List α) (next : Option String) :
    l.ids (⟨rows.map l.toResponse, next⟩ :: pages) = rows.map l.id ++ l.ids pages := by
  simp [Listing.ids, Function.comp_def, l.responseId_eq]

/-- A walk whose page has a cursor ends exactly if the rest of it does. -/
theorem ended_cons (hnext : page.nextCursor ≠ none) : Ended (page :: pages) ↔ Ended pages := by
  unfold Ended
  cases pages with
  | nil => simpa using hnext
  | cons head pages => rw [List.getLast?_cons_cons]

/-- The last page. -/
theorem VisitsFrom.last {limit : ℕ} (hle : (l.selected T m).length ≤ limit)
    (hfirst : m ≠ none → l.selected T m ≠ []) :
    VisitsFrom l limit m (T :: Ts) [⟨(l.selected T m).map l.toResponse, none⟩] where
  sizes := by simpa using hle
  increasing := by
    rw [ids_map, List.pairwise_map]
    exact selected_sorted
  above := by
    rw [ids_map]
    intro i hi
    obtain ⟨row, hrow, rfl⟩ := List.mem_map.mp hi
    exact (mem_selected.mp hrow).2.2
  shown := by
    intro p hp
    simp only [List.zip_cons_cons, List.zip_nil_left, List.mem_singleton] at hp
    rw [hp, ← List.take_length (l := l.selected T m)]
    exact shown_take
  complete := by
    rintro - T' hT' row hrow
    obtain rfl := Option.some.inj hT'
    rw [ids_map]
    exact List.mem_map_of_mem hrow
  nonempty := by simp
  first := by
    rintro hm page hpage
    obtain rfl := Option.some.inj hpage
    simpa using hfirst hm
  ends := fun _ _ _ _ _ => ⟨_, rfl, rfl⟩
  short := by simp

/-- A full page and the walk that goes on from it. -/
theorem VisitsFrom.cons {limit : ℕ} {last : α} (hlimit : 1 ≤ limit)
    (hlast : ((l.selected T m).take limit).getLast? = some last)
    (hgrow : ∀ T' ∈ Ts.head?, Grows l T T')
    (hrest : VisitsFrom l limit (some (l.id last)) Ts pages) :
    VisitsFrom l limit m (T :: Ts)
      (⟨((l.selected T m).take limit).map l.toResponse, some (toString (l.id last))⟩ :: pages) := by
  have hadv := advance hlast
  have hitems : (l.selected T m).take limit ≠ [] :=
    List.ne_nil_of_mem (List.mem_of_getLast? hlast)
  -- behind this page only larger ids are shown, so no id is shown twice
  have hgt : ∀ i ∈ l.ids pages, l.id last < i := by
    intro i hi
    simpa using hrest.above i hi
  constructor
  · intro page hpage
    rcases List.mem_cons.mp hpage with rfl | hpage
    · simp
    · exact hrest.sizes page hpage
  · rw [ids_cons, List.pairwise_append]
    refine ⟨?_, hrest.increasing, ?_⟩
    · rw [List.pairwise_map]
      exact selected_sorted.sublist (List.take_sublist ..)
    · intro a ha b hb
      obtain ⟨row, hrow, rfl⟩ := List.mem_map.mp ha
      exact lt_of_le_of_lt (hadv.items_le row hrow) (hgt b hb)
  · rw [ids_cons]
    intro i hi
    rcases List.mem_append.mp hi with hi | hi
    · obtain ⟨row, hrow, rfl⟩ := List.mem_map.mp hi
      exact (mem_selected.mp (List.mem_of_mem_take hrow)).2.2
    · exact all_lt_trans hadv.above (hgt i hi)
  · intro p hp
    rw [List.zip_cons_cons] at hp
    rcases List.mem_cons.mp hp with rfl | hp
    · exact shown_take
    · exact hrest.shown p hp
  · -- a row that is not on this page was left for later, and is there at the next call
    intro hended T' hT' row hrow
    obtain rfl := Option.some.inj hT'
    rw [ids_cons, List.mem_append]
    rw [hadv.whole] at hrow
    rcases List.mem_append.mp hrow with hitem | hlater
    · exact Or.inl (List.mem_map_of_mem hitem)
    · right
      have hended' : Ended pages := (ended_cons (by simp)).mp hended
      obtain ⟨T', hT'⟩ : ∃ T', T' ∈ Ts.head? := by
        have hshort := hrest.short
        cases Ts with
        | nil =>
            obtain rfl := List.length_eq_zero_iff.mp (Nat.le_zero.mp hshort)
            obtain ⟨_, hnone, -⟩ := hended'
            cases hnone
        | cons T' Ts => exact ⟨T', rfl⟩
      have hrest' : row ∈ l.selected T m := List.mem_of_mem_drop hlater
      obtain ⟨row', hrow', hid⟩ := (hgrow T' hT').selected hrest' (hadv.later_gt row hlater)
      rw [← hid]
      exact hrest.complete hended' T' hT' row' hrow'
  · intro page hpage
    change page ∈ pages at hpage
    cases pages with
    | nil => cases hpage
    | cons head pages =>
        rcases List.mem_cons.mp hpage with rfl | hpage
        · exact hrest.first (by simp) page rfl
        · exact hrest.nonempty page hpage
  · rintro - page hpage
    obtain rfl := Option.some.inj hpage
    simpa using hitems
  -- a call at a quiet table: the tables of the later calls are those of the rest of the walk
  · rintro Us U n heq hn
    rw [ended_cons (by simp)]
    cases Us with
    | nil =>
        cases n with
        | zero => cases heq
        | succ n =>
            obtain ⟨rfl, rfl⟩ := List.cons.inj heq
            have hlt := selected_length_lt hlimit hlast
            exact hrest.ends [] T n rfl (by omega)
    | cons V Us =>
        obtain ⟨rfl, rfl⟩ := List.cons.inj heq
        have hle := selected_length_le (T := U) hadv.above
        exact hrest.ends Us U n rfl (by omega)
  · have hshort := hrest.short
    simpa using hshort

end

/-- Two products, and later a third between them. -/
def shelf : Products where
  rows := [⟨5, "mug", 900, true⟩, ⟨1, "pen", 150, true⟩]
  distinct := by decide
  small := by decide

end Marketplace.Lists
