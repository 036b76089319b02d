import Marketplace.Sales.Card

/-!
# Sales.Report — revenue by shipping country

The query of `src/report.ts`, over the same committed rows as the product cards. It joins the
orders with their lines, so an order without lines is in no group, and it leaves out no status:
a cancelled order still counts here. The rows of the report add up to the totals of all orders,
and so do the lines of all products, those on the cards and those not (`report_adds_up`).
-/

namespace Marketplace.Sales

open Core Auth Outbox Orders

variable {η : Type} [DecidableEq η] {hash : Request → η}

/-! ## The query -/

structure RevenueByCountryRow where
  country : String
  orderCount : ℕ
  revenueCents : ℤ
deriving DecidableEq, Repr

abbrev OrderLine := Order × OrderItem

/-- `innerJoin('order.items', 'item')`. -/
def orderLines (t : Tables) : List OrderLine :=
  t.orderItems.filterMap fun it => (t.orders it.orderId).map fun o => (o, it)

/-- The sum of a group is not NULL: a group has a row. -/
def toRow (g : String × List OrderLine) : RevenueByCountryRow where
  country := g.1
  orderCount := Groups.countDistinct (fun line => some line.2.orderId) g.2
  revenueCents := (Groups.sum (fun line => some line.2.line.lineTotalCents) g.2).getD 0

def byCountry (t : Tables) : List RevenueByCountryRow :=
  (Groups.groupBy (fun line => line.1.shippingCountry) (orderLines t)).map toRow

/-- `orderBy('SUM(item.line_total_cents)', 'DESC')`, in which rows of equal sums may stand in
any order. -/
structure IsReport (t : Tables) (rows : List RevenueByCountryRow) : Prop where
  perm : rows.Perm (byCountry t)
  sorted : rows.Pairwise fun a b => b.revenueCents ≤ a.revenueCents

def report (t : Tables) : List RevenueByCountryRow :=
  (byCountry t).insertionSort fun a b => b.revenueCents ≤ a.revenueCents

instance : Std.Total fun a b : RevenueByCountryRow => b.revenueCents ≤ a.revenueCents where
  total a b := Int.le_total b.revenueCents a.revenueCents

instance : IsTrans RevenueByCountryRow fun a b => b.revenueCents ≤ a.revenueCents where
  trans _ _ _ hab hbc := Int.le_trans hbc hab

theorem report_isReport (t : Tables) : IsReport t (report t) where
  perm := List.perm_insertionSort _ _
  sorted := List.pairwise_insertionSort _ _

/-! ## Orders and their lines -/

def itemsAt (t : Tables) (o : OrderId) : List OrderItem :=
  t.orderItems.filter fun it => it.orderId = o

/-- The lines of the orders to a country. -/
def linesTo (t : Tables) (country : String) : List OrderLine :=
  Groups.group (fun line => line.1.shippingCountry) (orderLines t) country

/-- The orders of a run, and those to a country. -/
def orderIds (d : Db η) : List OrderId :=
  (List.range d.nextOrder).filter fun o => (d.orders o).base.isSome

def orderIdsTo (d : Db η) (country : String) : List OrderId :=
  (List.range d.nextOrder).filter fun o =>
    (d.orders o).base.any fun r => r.shippingCountry = country

/-- The total of an order; `0` where there is none. -/
def totalAt (d : Db η) (o : OrderId) : ℤ := ((d.orders o).base.map Order.totalCents).getD 0

/-- Before the run, too, an order costs what its lines cost. -/
def Totalled (d₀ : Db η) (items₀ : List OrderItem) : Prop :=
  ∀ o r, (d₀.orders o).base = some r →
    r.totalCents = revenue (items₀.filter fun it => it.orderId = o)

section

variable {t : Tables} {o : OrderId} {r : Order} {country : String}

/-- A line of the report is a line of an order, with that order beside it. -/
theorem mem_orderLines {line : OrderLine} : line ∈ orderLines t ↔
    line.2 ∈ t.orderItems ∧ t.orders line.2.orderId = some line.1 := by
  constructor
  · intro h
    obtain ⟨it, hit, hline⟩ := List.mem_filterMap.mp h
    obtain ⟨o, ho, rfl⟩ := Option.map_eq_some_iff.mp hline
    exact ⟨hit, ho⟩
  · rintro ⟨hit, ho⟩
    apply List.mem_filterMap.mpr
    exact ⟨line.2, hit, by rw [ho]; rfl⟩

/-- The lines of one order, picked from those to its country, are all the lines it has. -/
theorem lines_of_order (hr : t.orders o = some r) (hc : r.shippingCountry = country) :
    Groups.group (fun line => line.2.orderId) (linesTo t country) o =
      (itemsAt t o).map (Prod.mk r) := by
  unfold linesTo orderLines itemsAt Groups.group
  induction t.orderItems with
  | nil => rfl
  | cons it items ih =>
      by_cases ho : it.orderId = o
      · subst ho
        simp [hr, hc, ih]
      · cases hrow : t.orders it.orderId with
        | none => simp [hrow, ho, ih]
        | some r' =>
            by_cases hc' : r'.shippingCountry = country
            · simp [hrow, ho, hc', ih]
            · simp [hrow, ho, hc', ih]

end

/-! ## The report over a run -/

section

variable {d₀ d : Db η} {items₀ : List OrderItem} {names : ProductId → String} {o : OrderId}
  {r : Order} {rows : List RevenueByCountryRow} {country : String}

section

omit [DecidableEq η]

/-- No line is without its order. -/
theorem line_order (hinv : Inv hash d₀ d) (hb : AllBooked d₀ d) (h₀ : Before d₀ items₀)
    {it : OrderItem} (hit : it ∈ items₀ ++ d.orderItems) :
    ∃ r, (d.orders it.orderId).base = some r := by
  rcases List.mem_append.mp hit with hold | hnew
  · obtain ⟨r₀, hr₀⟩ := Option.isSome_iff_exists.mp (h₀.orders it hold)
    obtain ⟨status, hr⟩ := hinv.initial _ r₀ hr₀
    exact ⟨_, hr⟩
  · rw [hinv.orderItems] at hnew
    obtain ⟨sale, hsale, hit⟩ := List.mem_flatMap.mp hnew
    obtain ⟨l, -, rfl⟩ := List.mem_map.mp hit
    obtain ⟨-, ⟨at₀, status, hr⟩, -⟩ := hb sale hsale
    exact ⟨_, hr⟩

/-- An order is below the next number. -/
theorem order_lt (hinv : Inv hash d₀ d) (hr : (d.orders o).base = some r) : o < d.nextOrder := by
  by_contra hge
  rw [hinv.fresh o (Nat.le_of_not_lt hge)] at hr
  cases hr

end

omit [DecidableEq η] in
/-- What an order costs is what its lines cost. -/
theorem total_of_lines (hinv : Inv hash d₀ d) (hb : AllBooked d₀ d) (h₀ : Before d₀ items₀)
    (htotal : Totalled d₀ items₀) (hr : (d.orders o).base = some r) :
    r.totalCents = revenue (itemsAt (tablesOf names items₀ d) o) := by
  have hsplit : itemsAt (tablesOf names items₀ d) o =
      (items₀.filter fun it => it.orderId = o) ++ itemsOf d o := List.filter_append ..
  rw [hsplit]
  rcases hinv.conserved.orders o r hr with ⟨r₀, status, hr₀, rfl⟩ | ⟨sale, hsale, rfl, -, hplaced⟩
  · -- an initial order got no line in the run
    have hnone : itemsOf d o = [] := by
      apply List.filter_eq_nil_iff.mpr
      intro it hit heq
      obtain ⟨hfresh, -⟩ := run_line hinv hb hit
      rw [of_decide_eq_true heq, hr₀] at hfresh
      cases hfresh
    rw [hnone, List.append_nil]
    exact htotal o r₀ hr₀
  · -- an order of the run had no line before it
    have hnone : (items₀.filter fun it => it.orderId = sale.order.orderId) = [] := by
      apply List.filter_eq_nil_iff.mpr
      intro it hit heq
      have hsome := h₀.orders it hit
      rw [of_decide_eq_true heq, (hb sale hsale).fresh] at hsome
      cases hsome
    rw [hnone, List.nil_append]
    exact hplaced.total

section

omit [DecidableEq η]

theorem orderIdsTo_nodup : (orderIdsTo d country).Nodup := List.nodup_range.filter _

/-- The orders to a country are those whose row says so. -/
theorem mem_orderIdsTo (hinv : Inv hash d₀ d) : o ∈ orderIdsTo d country ↔
    ∃ r, (d.orders o).base = some r ∧ r.shippingCountry = country := by
  unfold orderIdsTo
  rw [List.mem_filter, List.mem_range]
  constructor
  · rintro ⟨-, hany⟩
    obtain ⟨r, hr, hc⟩ := (Option.any_eq_true _ _).mp hany
    exact ⟨r, hr, of_decide_eq_true hc⟩
  · rintro ⟨r, hr, hc⟩
    refine ⟨order_lt hinv hr, ?_⟩
    rw [hr]
    exact decide_eq_true hc

end

omit [DecidableEq η] in
/-- The lines to a country add up to the totals of its orders. -/
theorem revenue_to (hinv : Inv hash d₀ d) (hb : AllBooked d₀ d) (h₀ : Before d₀ items₀)
    (htotal : Totalled d₀ items₀) :
    ((linesTo (tablesOf names items₀ d) country).map fun line =>
      line.2.line.lineTotalCents).sum = ((orderIdsTo d country).map (totalAt d)).sum := by
  have hkeys : ∀ line ∈ linesTo (tablesOf names items₀ d) country,
      line.2.orderId ∈ orderIdsTo d country := by
    intro line hline
    obtain ⟨hmem, hc⟩ := List.mem_filter.mp hline
    obtain ⟨-, hr⟩ := mem_orderLines.mp hmem
    exact (mem_orderIdsTo hinv).mpr ⟨line.1, hr, of_decide_eq_true hc⟩
  rw [← Groups.sum_parts (fun line : OrderLine => line.2.line.lineTotalCents)
    orderIdsTo_nodup hkeys]
  apply congrArg List.sum
  apply List.map_congr_left
  intro o ho
  obtain ⟨r, hr, hc⟩ := (mem_orderIdsTo hinv).mp ho
  rw [lines_of_order (t := tablesOf names items₀ d) hr hc, List.map_map]
  show revenue (itemsAt (tablesOf names items₀ d) o) = totalAt d o
  rw [← total_of_lines hinv hb h₀ htotal hr, totalAt, hr]
  rfl

section

omit [DecidableEq η]

/-- A row counts the orders to its country, but for those without lines. -/
theorem count_to (hinv : Inv hash d₀ d) :
    Groups.countDistinct (fun line : OrderLine => some line.2.orderId)
        (linesTo (tablesOf names items₀ d) country) =
      ((orderIdsTo d country).filter fun o => itemsAt (tablesOf names items₀ d) o ≠ []).length := by
  unfold Groups.countDistinct
  apply List.Perm.length_eq
  apply (List.perm_ext_iff_of_nodup (List.nodup_dedup _) (orderIdsTo_nodup.filter _)).mpr
  intro o
  rw [List.mem_dedup, List.mem_filterMap, List.mem_filter, mem_orderIdsTo hinv]
  constructor
  · rintro ⟨line, hline, heq⟩
    obtain rfl := Option.some.inj heq
    obtain ⟨hmem, hc⟩ := List.mem_filter.mp hline
    obtain ⟨hit, hr⟩ := mem_orderLines.mp hmem
    refine ⟨⟨line.1, hr, of_decide_eq_true hc⟩, decide_eq_true ?_⟩
    apply List.ne_nil_of_mem
    exact List.mem_filter.mpr ⟨hit, decide_eq_true rfl⟩
  · rintro ⟨⟨r, hr, hc⟩, hitems⟩
    obtain ⟨it, hit⟩ := List.exists_mem_of_ne_nil _ (of_decide_eq_true hitems)
    obtain ⟨hmem, ho⟩ := List.mem_filter.mp hit
    obtain rfl := of_decide_eq_true ho
    refine ⟨(r, it), ?_, rfl⟩
    apply List.mem_filter.mpr
    exact ⟨mem_orderLines.mpr ⟨hmem, hr⟩, decide_eq_true hc⟩

/-- The lines with their orders are the lines. -/
theorem orderLines_items (hinv : Inv hash d₀ d) (hb : AllBooked d₀ d) (h₀ : Before d₀ items₀) :
    (orderLines (tablesOf names items₀ d)).map Prod.snd = items₀ ++ d.orderItems := by
  have hall : ∀ it ∈ items₀ ++ d.orderItems, ∃ r, (d.orders it.orderId).base = some r :=
    fun it hit => line_order hinv hb h₀ hit
  show ((items₀ ++ d.orderItems).filterMap fun it =>
    ((d.orders it.orderId).base).map fun o => (o, it)).map Prod.snd = _
  generalize items₀ ++ d.orderItems = items at hall ⊢
  induction items with
  | nil => rfl
  | cons it items ih =>
      obtain ⟨r, hr⟩ := hall it List.mem_cons_self
      have hrest := ih fun a ha => hall a (List.mem_cons_of_mem _ ha)
      rw [List.filterMap_cons, hr]
      show it :: _ = it :: items
      rw [hrest]

end

omit [DecidableEq η] in
/-- All lines add up to the totals of all orders. -/
theorem revenue_total (hinv : Inv hash d₀ d) (hb : AllBooked d₀ d) (h₀ : Before d₀ items₀)
    (htotal : Totalled d₀ items₀) :
    revenue (items₀ ++ d.orderItems) = ((orderIds d).map (totalAt d)).sum := by
  have hmem : ∀ o, o ∈ orderIds d ↔ ∃ r, (d.orders o).base = some r := by
    intro o
    unfold orderIds
    rw [List.mem_filter, List.mem_range, Option.isSome_iff_exists]
    constructor
    · exact And.right
    · rintro ⟨r, hr⟩
      exact ⟨order_lt hinv hr, r, hr⟩
  have hkeys : ∀ it ∈ items₀ ++ d.orderItems, it.orderId ∈ orderIds d :=
    fun it hit => (hmem it.orderId).mpr (line_order hinv hb h₀ hit)
  have hparts := Groups.sum_parts (fun it : OrderItem => it.line.lineTotalCents)
    (List.nodup_range.filter _) hkeys
  unfold revenue
  rw [← hparts]
  apply congrArg List.sum
  apply List.map_congr_left
  intro o ho
  obtain ⟨r, hr⟩ := (hmem o).mp ho
  show revenue (itemsAt (tablesOf (fun _ => "") items₀ d) o) = totalAt d o
  rw [← total_of_lines hinv hb h₀ htotal hr, totalAt, hr]
  rfl

/-- The rows of a report are the groups of the lines. -/
theorem report_row {t : Tables} {row : RevenueByCountryRow} (hrows : IsReport t rows)
    (hrow : row ∈ rows) : row = toRow (row.country, linesTo t row.country) ∧
      ∃ line ∈ orderLines t, line.1.shippingCountry = row.country := by
  obtain ⟨g, hg, rfl⟩ := List.mem_map.mp (hrows.perm.mem_iff.mp hrow)
  obtain ⟨hlines, hline⟩ := Groups.mem_groupBy hg
  refine ⟨?_, hline⟩
  show toRow g = toRow (g.1, linesTo t g.1)
  unfold linesTo
  rw [← hlines]

/-- The report has each country once, and exactly those to which a line was sold. -/
theorem report_countries {t : Tables} (hrows : IsReport t rows) :
    (rows.map RevenueByCountryRow.country).Nodup ∧
      ∀ c, c ∈ rows.map RevenueByCountryRow.country ↔
        ∃ line ∈ orderLines t, line.1.shippingCountry = c := by
  have hperm := hrows.perm.map RevenueByCountryRow.country
  have hkeys : (byCountry t).map RevenueByCountryRow.country =
      (Groups.groupBy (fun line => line.1.shippingCountry) (orderLines t)).map Prod.fst := by
    unfold byCountry
    rw [List.map_map]
    rfl
  constructor
  · apply hperm.nodup_iff.mpr
    rw [hkeys]
    exact Groups.groupBy_nodup _ _
  · intro c
    rw [hperm.mem_iff, hkeys, Groups.groupBy_keys, List.mem_dedup, List.mem_map]

/-- The revenues of the report add up to that of all lines. -/
theorem report_sum {t : Tables} (hrows : IsReport t rows) :
    (rows.map RevenueByCountryRow.revenueCents).sum = revenue ((orderLines t).map Prod.snd) := by
  have hgroups := Groups.sum_groupBy (fun line : OrderLine => line.1.shippingCountry)
    (fun line => line.2.line.lineTotalCents) (orderLines t)
  rw [(hrows.perm.map RevenueByCountryRow.revenueCents).sum_eq]
  unfold byCountry revenue
  rw [List.map_map, List.map_map]
  refine Eq.trans ?_ hgroups
  apply congrArg List.sum
  apply List.map_congr_left
  intro g _
  exact Groups.sum_some _ _

/-- In every reachable state the rows of the report add up to the totals of the orders, country
by country and in all; and the lines of the products, on the cards and off them, to the same. -/
theorem report_adds_up {s t : St η} {as : List Orders.Label} (hs : (machine hash).Init s)
    (hr : (machine hash).Run Machine.Always s as t) (h₀ : Before s.shared items₀)
    (htotal : Totalled s.shared items₀)
    (hrows : IsReport (tablesOf names items₀ t.shared) rows) :
    (rows.map RevenueByCountryRow.country).Nodup ∧
    (∀ row ∈ rows,
      row.revenueCents = ((orderIdsTo t.shared row.country).map (totalAt t.shared)).sum ∧
      row.orderCount = ((orderIdsTo t.shared row.country).filter fun o =>
        itemsAt (tablesOf names items₀ t.shared) o ≠ []).length ∧ 0 < row.orderCount) ∧
    (∀ o r, (t.shared.orders o).base = some r →
      itemsAt (tablesOf names items₀ t.shared) o ≠ [] →
        r.shippingCountry ∈ rows.map RevenueByCountryRow.country) ∧
    (rows.map RevenueByCountryRow.revenueCents).sum =
      ((orderIds t.shared).map (totalAt t.shared)).sum ∧
    ∀ ps : List ProductId, ps.Nodup →
      (∀ it ∈ (tablesOf names items₀ t.shared).orderItems, it.line.productId ∈ ps) →
      (rows.map RevenueByCountryRow.revenueCents).sum =
        (ps.map fun p => revenue (sold (tablesOf names items₀ t.shared) p)).sum +
          (ps.map fun p => revenue (unsold (tablesOf names items₀ t.shared) p)).sum := by
  have hinv := (holds hs hr).1
  have hb := booked hs hr
  obtain ⟨hnodup, hcountries⟩ := report_countries hrows
  have hsum := report_sum hrows
  rw [orderLines_items hinv hb h₀] at hsum
  refine ⟨hnodup, ?_, ?_, hsum.trans (revenue_total hinv hb h₀ htotal), ?_⟩
  · intro row hrow
    obtain ⟨heq, line, hline, hc⟩ := report_row hrows hrow
    have hmem : line ∈ linesTo (tablesOf names items₀ t.shared) row.country :=
      List.mem_filter.mpr ⟨hline, decide_eq_true hc⟩
    refine ⟨?_, ?_, ?_⟩
    · rw [heq]
      exact (Groups.sum_some _ _).trans (revenue_to hinv hb h₀ htotal)
    · rw [heq]
      exact count_to hinv
    · rw [heq]
      apply List.length_pos_of_mem
      exact List.mem_dedup.mpr (List.mem_filterMap.mpr ⟨line, hmem, rfl⟩)
  · intro o r hr hitems
    obtain ⟨it, hit⟩ := List.exists_mem_of_ne_nil _ hitems
    obtain ⟨hmem, ho⟩ := List.mem_filter.mp hit
    obtain rfl := of_decide_eq_true ho
    exact (hcountries _).mpr ⟨(r, it), mem_orderLines.mpr ⟨hmem, hr⟩, rfl⟩
  · intro ps hps hall
    rw [hsum, ← List.sum_map_add]
    have hparts := Groups.sum_parts (fun it : OrderItem => it.line.lineTotalCents) hps hall
    unfold revenue
    rw [← show _ = ((items₀ ++ t.shared.orderItems).map fun it => it.line.lineTotalCents).sum
      from hparts]
    apply congrArg List.sum
    apply List.map_congr_left
    intro p _
    exact (sum_sold fun it => it.line.lineTotalCents).symm

end

/-- The checkout brought 1500 cents, and the order that was cancelled counts with 1000. -/
theorem report_adds_up_fourCalls : ∃ t : St Request,
    (machine id).Run Machine.Always shop fourCalls t ∧
    report (tablesOf (fun _ => "Desk Lamp") [] t.shared) = [⟨"US", 1, 1500⟩, ⟨"PL", 1, 1000⟩] ∧
    ((orderIds t.shared).map (totalAt t.shared)).sum = 2500 := by
  have hrun : ∃ t, (machine (id : Request → Request)).exec (fun _ _ => true) shop fourCalls =
      some t ∧ report (tablesOf (fun _ => "Desk Lamp") [] t.shared) =
        [⟨"US", 1, 1500⟩, ⟨"PL", 1, 1000⟩] := ⟨_, rfl, rfl⟩
  obtain ⟨t, ht, hreport⟩ := hrun
  have hr := Machine.exec_always ht
  obtain ⟨-, -, -, hsum, -⟩ := report_adds_up (shop_init id) hr before_nil
    (fun o r hrow => nomatch (show none = some r from hrow)) (report_isReport _)
  refine ⟨t, hr, hreport, ?_⟩
  rw [← hsum, hreport]
  rfl

end Marketplace.Sales
