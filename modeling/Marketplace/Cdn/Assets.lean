import Marketplace.Cdn.Coherent
import Mathlib.Data.List.TakeWhile

/-!
# Cdn.Assets — a published asset and its path

`src/cdn/assets.ts`. `publishAsset` returns the path `/` + key as it is, while the edge takes
the path up to the first `?` and decodes it. So the path leads back to the key if and only if
the name has no `?` and no `%` (`published_served_iff`).

`sha256` and the etag that the storage gives an object are parameters. Lengths are counted in
characters.
-/

namespace Marketplace.Cdn

open Core JsText

/-! ## Publishing -/

/-- `path.extname`: from the last dot of the last portion, if something stands before it. -/
def extname (path : List Char) : List Char :=
  let base := (path.reverse.dropWhile (· = '/')).takeWhile (· ≠ '/')
  if base = "..".toList then []
  else match base.dropWhile (· ≠ '.') with
    | _ :: _ :: _ => '.' :: (base.takeWhile (· ≠ '.')).reverse
    | _ => []

example : extname "css/app.min.css".toList = ".css".toList := by decide

example : extname ".htaccess".toList = [] := by decide

def IMMUTABLE : String := "public, max-age=31536000, immutable"

def TYPES : List (String × String) :=
  [(".css", "text/css; charset=utf-8"), (".js", "text/javascript; charset=utf-8"),
    (".svg", "image/svg+xml"), (".png", "image/png"), (".woff2", "font/woff2")]

/-- SHA-256, in hexadecimal. -/
structure Digest where
  hex : List UInt8 → List Char
  length : ∀ body, (hex body).length = 64
  digits : ∀ body, ∀ c ∈ hex body, c ∈ "0123456789abcdef".toList

def hashedName (sha256 : Digest) (name : List Char) (body : List UInt8) : List Char :=
  let ext := extname name
  let hash := (sha256.hex body).take 8
  name.take (name.length - ext.length) ++ '.' :: hash ++ ext

/-- The objects of the bucket, and the etag that an object is given. -/
structure Storage where
  objects : String → Option StoredObject
  etag : List UInt8 → Option String
  etag_valid : ∀ body, ∀ e ∈ etag body, validHeader e = true

def Storage.put (key : String) (body : List UInt8) (contentType cacheControl : String)
    (storage : Storage) : Storage :=
  { storage with
    objects := Function.update storage.objects key
      (some ⟨body, some contentType, some cacheControl, storage.etag body⟩) }

/-- What `storage.get` settles with. -/
def Storage.get (key : String) (storage : Storage) : FetchResult :=
  match storage.objects key with
  | none => .nothing
  | some obj => .object obj

structure Published where
  key : String
  path : String

def publishAsset (sha256 : Digest) (name : String) (body : List UInt8) (storage : Storage) :
    Published × Storage :=
  let key := "assets/" ++ String.ofList (hashedName sha256 name.toList body)
  let contentType := (TYPES.lookup (String.ofList (extname name.toList))).getD
    "application/octet-stream"
  ({ key, path := "/" ++ key }, storage.put key body contentType IMMUTABLE)

/-! ## What the edge serves -/

/-- The storage answers every fetch with what it holds. -/
def Faithful (storage : Storage) (s : St) (l : Label) : Prop :=
  ∀ f result, l = .settle f result →
    ∀ fetch, s.fetches f = some fetch → result = storage.get fetch.key

/-- Request `r` makes the edge fetch `key` and is answered 200 with `body`. -/
def ServedFrom (dbl : Doubles) (opts : EdgeOptions) (storage : Storage) (s : St) (r : ℕ)
    (req : Request) (key : String) (body : List UInt8) : Prop :=
  ∃ t, (machine dbl opts).next s (.request r req) = some t ∧
    t.requests r = .waiting req key s.nextFetch ∧ t.fetches s.nextFetch = some ⟨key, none, false⟩ ∧
    (∀ u as, (machine dbl opts).Run (Faithful storage) t as u →
      ∀ res, u.requests r = .answered res → res.status = 200 ∧ res.body = some body) ∧
    ∃ u as res, (machine dbl opts).Run (Faithful storage) t as u ∧ u.requests r = .answered res

/-! ## Names -/

section

variable {sha256 : Digest} {name : List Char} {body : List UInt8} {c : Char}

/-- A path is what stands before its last portion, that portion and slashes. -/
theorem portions (path : List Char) : ∃ before base k,
    path = before ++ base.reverse ++ List.replicate k '/' ∧ '/' ∉ base ∧
      (path.reverse.dropWhile (· = '/')).takeWhile (· ≠ '/') = base := by
  generalize hrev : path.reverse.dropWhile (· = '/') = rest
  refine ⟨(rest.dropWhile (· ≠ '/')).reverse, _, (path.reverse.takeWhile (· = '/')).length, ?_, ?_,
    rfl⟩
  · have hslashes : path.reverse.takeWhile (· = '/') =
        List.replicate (path.reverse.takeWhile (· = '/')).length '/' := by
      refine List.eq_replicate_of_mem ?_
      intro c hc
      simpa using List.mem_takeWhile_imp hc
    have hreverse := congrArg List.reverse
      (List.takeWhile_append_dropWhile (p := (· = '/')) (l := path.reverse))
    rw [List.reverse_append, List.reverse_reverse, hrev] at hreverse
    rw [← List.reverse_append, List.takeWhile_append_dropWhile, ← List.reverse_replicate,
      ← hslashes]
    exact hreverse.symm
  · intro hin
    simpa using List.mem_takeWhile_imp hin

/-- A path is a stem, its extension and slashes. -/
theorem extname_spec (path : List Char) : ∃ stem k,
    path = stem ++ extname path ++ List.replicate k '/' ∧ '/' ∉ extname path := by
  obtain ⟨before, base, k, hpath, hslash, hbase⟩ := portions path
  have hnone : ∃ stem k, path = stem ++ [] ++ List.replicate k '/' ∧ '/' ∉ ([] : List Char) :=
    ⟨before ++ base.reverse, k, by rw [List.append_nil]; exact hpath, List.not_mem_nil⟩
  unfold extname
  rw [hbase]
  dsimp only
  split
  · exact hnone
  · split
    · next c d more hdot =>
        have hsplit := List.takeWhile_append_dropWhile (p := (· ≠ '.')) (l := base)
        have hc : c = '.' := by
          have hhead := List.head?_dropWhile_not (· ≠ '.') base
          rw [hdot] at hhead
          simpa using hhead
        rw [hdot, hc] at hsplit
        refine ⟨before ++ (d :: more).reverse, k, ?_, ?_⟩
        · rw [hpath]
          conv_lhs => rw [← hsplit]
          simp
        · intro hin
          rcases List.mem_cons.mp hin with heq | hin
          · exact absurd heq (by decide)
          · rw [List.mem_reverse] at hin
            exact hslash (List.takeWhile_sublist _ |>.subset hin)
    · exact hnone

/-- The stem, with slashes where they were, the hash and the extension. -/
theorem hashedName_spec (sha256 : Digest) (name : List Char) (body : List UInt8) :
    ∃ stem k, name = stem ++ extname name ++ List.replicate k '/' ∧ '/' ∉ extname name ∧
      ∃ front, front <+: name ∧ stem <+: front ∧
        hashedName sha256 name body =
          front ++ '.' :: ((sha256.hex body).take 8 ++ extname name) := by
  obtain ⟨stem, k, hname, hslash⟩ := extname_spec name
  refine ⟨stem, k, hname, hslash, name.take (name.length - (extname name).length),
    List.take_prefix _ _, ?_, ?_⟩
  · have hlength := congrArg List.length hname
    rw [List.length_append, List.length_append, List.length_replicate] at hlength
    rw [List.prefix_take_iff]
    constructor
    · rw [hname, List.append_assoc]
      exact List.prefix_append _ _
    · omega
  · simp [hashedName]

theorem hash_digits (hc : c ∉ "0123456789abcdef".toList) :
    c ∉ (sha256.hex body).take 8 :=
  fun hin => hc (sha256.digits body c (List.mem_of_mem_take hin))

/-- The new name has the characters of the old one, but for dots, slashes and digits. -/
theorem mem_hashedName (hdot : c ≠ '.') (hslash : c ≠ '/')
    (hdigit : c ∉ "0123456789abcdef".toList) : c ∈ hashedName sha256 name body ↔ c ∈ name := by
  obtain ⟨stem, k, hname, -, front, hfront, hstem, heq⟩ := hashedName_spec sha256 name body
  have hhash : c ∉ (sha256.hex body).take 8 := hash_digits hdigit
  rw [heq, List.mem_append, List.mem_cons, List.mem_append]
  constructor
  · rintro (hin | hin | hin | hin)
    · exact hfront.subset hin
    · exact absurd hin hdot
    · exact absurd hin hhash
    · rw [hname]
      exact List.mem_append_left _ (List.mem_append_right _ hin)
  · intro hin
    rw [hname, List.mem_append, List.mem_append] at hin
    rcases hin with (hin | hin) | hin
    · exact Or.inl (hstem.subset hin)
    · exact Or.inr (Or.inr (Or.inr hin))
    · exact absurd (List.eq_of_mem_replicate hin) hslash

/-- Hashing brings no portion `..` in: the last one has the hash in it. -/
theorem hashedName_dots (h : "..".toList ∉ split '/' name) :
    "..".toList ∉ split '/' (hashedName sha256 name body) := by
  obtain ⟨stem, k, -, hslash, front, ⟨rest, hrest⟩, -, heq⟩ := hashedName_spec sha256 name body
  obtain ⟨init, last, -, happ⟩ := split_append '/' front
  obtain ⟨head, tail, -, hname⟩ := happ rest
  rw [hrest] at hname
  obtain ⟨head', tail', hsplit, hhashed⟩ :=
    happ ('.' :: ((sha256.hex body).take 8 ++ extname name))
  have hnot : '/' ∉ '.' :: ((sha256.hex body).take 8 ++ extname name) := by
    rw [List.mem_cons, List.mem_append, not_or, not_or]
    exact ⟨by decide, hash_digits (by decide), hslash⟩
  rw [split_of_notMem hnot, List.cons.injEq] at hsplit
  obtain ⟨rfl, rfl⟩ := hsplit
  rw [heq, hhashed]
  intro hin
  rcases List.mem_append.mp hin with hin | hin
  · exact h (by rw [hname]; exact List.mem_append_left _ hin)
  · have hlast := List.mem_singleton.mp hin
    obtain ⟨d, hd⟩ : ∃ d, d ∈ (sha256.hex body).take 8 := by
      refine List.exists_mem_of_length_pos ?_
      rw [List.length_take, sha256.length]
      decide
    have hdot : d ∈ "..".toList := by
      rw [hlast]
      exact List.mem_append_right _ (List.mem_cons_of_mem _ (List.mem_append_left _ hd))
    have hd' : d = '.' := by simpa using hdot
    exact hash_digits (c := '.') (by decide) (hd' ▸ hd)

/-! ## Paths -/

/-- The edge finds the key of a path if and only if the path says it literally. -/
theorem route_path_iff {key : String} {ifNoneMatch : Option String}
    (hstart : startsWith "assets/".toList key.toList) (hdots : "..".toList ∉ split '/' key.toList) :
    route ⟨"GET", "/" ++ key, ifNoneMatch⟩ = .ok key ↔ '?' ∉ key.toList ∧ '%' ∉ key.toList := by
  have hpath : ("/" ++ key).toList = '/' :: key.toList := by
    simp [String.toList_append]
  have hassets : key.toList.dropWhile (· = '/') = key.toList := by
    obtain ⟨rest, hrest⟩ := List.isPrefixOf_iff_prefix.mp hstart
    rw [← hrest]
    rfl
  constructor
  · intro hroute
    unfold route at hroute
    simp only [hpath] at hroute
    rw [List.takeWhile_cons_of_pos (by decide), decodeURIComponent_cons (by decide)] at hroute
    -- nothing was cut off and nothing decoded, or the text would be shorter than the key
    generalize hcut : key.toList.takeWhile (· ≠ '?') = cut at hroute
    cases hdecode : decodeURIComponent cut with
    | none =>
        rw [hdecode] at hroute
        cases hroute
    | some text =>
        have htext : text.dropWhile (· = '/') = key.toList := by
          rw [hdecode] at hroute
          dsimp only [Option.map_some] at hroute
          rw [List.dropWhile_cons_of_pos (by decide), if_neg (by decide)] at hroute
          split at hroute
          · cases hroute
          · rw [← Except.ok.inj hroute, String.toList_ofList]
        have hprefix : cut <+: key.toList := hcut ▸ List.takeWhile_prefix _
        have hdrop := (List.dropWhile_suffix (l := text) (· = '/')).length_le
        rw [htext] at hdrop
        obtain ⟨hle, hpercent⟩ := decodeURIComponent_length hdecode
        have hlength := hprefix.length_le
        have hwhole : cut = key.toList := hprefix.eq_of_length (by omega)
        constructor
        · intro hquery
          rw [← hwhole, ← hcut] at hquery
          simpa using List.mem_takeWhile_imp hquery
        · rw [← hwhole]
          exact hpercent (by omega)
  -- without ? and % nothing is cut off and nothing decoded
  · rintro ⟨hquery, hpercent⟩
    have htake : ('/' :: key.toList).takeWhile (· ≠ '?') = '/' :: key.toList := by
      rw [List.takeWhile_eq_self_iff]
      intro c hc
      rcases List.mem_cons.mp hc with rfl | hc
      · rfl
      · exact decide_eq_true fun heq => hquery (heq ▸ hc)
    have hdecode : decodeURIComponent ('/' :: key.toList) = some ('/' :: key.toList) := by
      refine decodeURIComponent_of_notMem ?_
      rw [List.mem_cons, not_or]
      exact ⟨by decide, hpercent⟩
    unfold route
    simp only [hpath, htake, hdecode]
    rw [List.dropWhile_cons_of_pos (by decide), hassets]
    rw [if_neg (by decide), if_neg (by rw [not_or, not_not]; exact ⟨hstart, hdots⟩),
      String.ofList_toList]

end

/-! ## Serving -/

section

variable {dbl : Doubles} {opts : EdgeOptions} {storage : Storage} {s t : St} {l : Label}
  {r f : ℕ} {req : Request} {key : String} {obj : StoredObject}

/-- Fetch `f` is of `key`, and if it has settled, with what the storage holds. -/
def FetchedFrom (storage : Storage) (f : ℕ) (key : String) (s : St) : Prop :=
  ∃ result ended, s.fetches f = some ⟨key, result, ended⟩ ∧ ∀ x ∈ result, x = storage.get key

/-- A fetch that answers truthfully keeps the object it saw under its key, whatever other requests
do. -/
theorem FetchedFrom.step (h : FetchedFrom storage f key s) (hsound : Sound opts s)
    (hfaithful : Faithful storage s l) (hn : (machine dbl opts).next s l = some t) :
    FetchedFrom storage f key t := by
  obtain ⟨result, ended, hf, hresult⟩ := h
  have hold : t.fetches f = s.fetches f → FetchedFrom storage f key t :=
    fun heq => ⟨result, ended, heq.trans hf, hresult⟩
  -- only the fetch's own steps touch it; every other step leaves the fetches alone
  cases step_cases hsound.within hn with
  | request hfresh ha =>
      cases ha with
      | refused res _ ht => exact hold (ht ▸ rfl)
      | hit key' entry e uses _ _ _ _ _ _ _ ht => exact hold (ht ▸ rfl)
      | joined key' g e _ _ _ _ _ _ ht => exact hold (ht ▸ rfl)
      | fetched key' e _ _ _ _ _ _ ht =>
          have hne : f ≠ s.nextFetch := by
            rintro rfl
            rw [hsound.fetching.fresh _ le_rfl] at hf
            cases hf
          exact hold (by rw [ht]; exact Function.update_of_ne hne ..)
  | @settle g key' result' hg =>
      by_cases hgf : f = g
      · subst hgf
        rw [hf] at hg
        cases hg
        refine ⟨some result', false, Function.update_self .., ?_⟩
        rintro x ⟨⟩
        exact hfaithful f result' rfl _ hf
      · exact hold (Function.update_of_ne hgf ..)
  | @ended g key' result' hg =>
      by_cases hgf : f = g
      · subst hgf
        rw [hf] at hg
        cases hg
        exact ⟨some result', true, Function.update_self .., hresult⟩
      · exact hold (Function.update_of_ne hgf ..)
  | resume hwait hg hfin =>
      cases hfin with
      | plain ht => exact hold (ht ▸ rfl)
      | stored obj e uses _ _ _ _ ht => exact hold (ht ▸ rfl)
  | tick hle => exact hold rfl

/-- Along a run in which storage answers truthfully a fetch brings what storage has. -/
theorem FetchedFrom.run {as : List Label} (h : FetchedFrom storage f key s)
    (hsound : Sound opts s) (hr : (machine dbl opts).Run (Faithful storage) s as t) :
    FetchedFrom storage f key t := by
  have hboth : Sound opts t ∧ FetchedFrom storage f key t := by
    refine hr.invariant (P := fun s => Sound opts s ∧ FetchedFrom storage f key s) ?_ ⟨hsound, h⟩
    intro s l t hok hn hP
    exact ⟨hP.1.next hn, hP.2.step hP.1 hok hn⟩
  exact hboth.2

theorem faithful_of_ne (h : ∀ f result, l ≠ .settle f result) : Faithful storage s l :=
  fun f result heq => absurd heq (h f result)

/-- A fetch under way can be answered, as long as the process has not hung. -/
theorem settles (hrunning : s.hung = false) (hf : s.fetches f = some ⟨key, none, false⟩)
    (result : FetchResult) : ∃ t, (machine dbl opts).next s (.settle f result) = some t ∧
      t.fetches f = some ⟨key, some result, false⟩ ∧ t.requests = s.requests := by
  refine ⟨{ s with fetches := Function.update s.fetches f (some ⟨key, some result, false⟩) }, ?_,
    Function.update_self .., rfl⟩
  simp [machine, St.next, hrunning, hf]

/-- A fetch that is answered can end. -/
theorem ends (hrunning : s.hung = false) {result : FetchResult}
    (hf : s.fetches f = some ⟨key, some result, false⟩) :
    ∃ t, (machine dbl opts).next s (.ended f) = some t ∧
      t.fetches f = some ⟨key, some result, true⟩ ∧ t.requests = s.requests := by
  refine ⟨{ s with
    edge := { s.edge with inflight := s.edge.inflight.delete key }
    fetches := Function.update s.fetches f (some ⟨key, some result, true⟩) }, ?_,
    Function.update_self .., rfl⟩
  simp [machine, St.next, hrunning, hf]

/-- A request whose fetch has ended can go on and be answered with what the fetch brought. -/
theorem resumes (hw : Within opts s) {result : FetchResult}
    (hwait : s.requests r = .waiting req key f) (hf : s.fetches f = some ⟨key, some result, true⟩) :
    ∃ t, (machine dbl opts).next s (.resume r) = some t ∧
      t.requests r = .answered (reply req result) := by
  refine ⟨s.finish dbl opts r req key result, ?_, ?_⟩
  · simp [machine, St.next, hw.running, hwait, hf]
  · cases (finish_spec hw : Finish dbl s r req key result _) with
    | plain ht =>
        rw [ht]
        exact Function.update_self ..
    | stored obj e uses _ _ _ _ ht =>
        rw [ht]
        exact Function.update_self ..

/-- A waiting request is answered once its fetch has settled. -/
theorem answers (hsound : Sound opts s) (hwait : s.requests r = .waiting req key f)
    (hf : s.fetches f = some ⟨key, none, false⟩) :
    ∃ u as res, (machine dbl opts).Run (Faithful storage) s as u ∧
      u.requests r = .answered res := by
  obtain ⟨s₁, hn₁, hf₁, hr₁⟩ := settles hsound.within.running hf (storage.get key)
  have hsound₁ := hsound.next hn₁
  obtain ⟨s₂, hn₂, hf₂, hr₂⟩ := ends hsound₁.within.running hf₁
  have hsound₂ := hsound₁.next hn₂
  obtain ⟨s₃, hn₃, hans⟩ := resumes hsound₂.within (by rw [hr₂, hr₁, hwait]) hf₂
  have hfaithful : Faithful storage s (.settle f (storage.get key)) := by
    rintro _ _ ⟨⟩ fetch hfetch
    rw [hf] at hfetch
    cases hfetch
    rfl
  exact ⟨s₃, _, _, .cons hfaithful hn₁ (.cons (faithful_of_ne (by simp)) hn₂
    (.single (faithful_of_ne (by simp)) hn₃)), hans⟩

/-- A first request for an object that storage has is served from it exactly if its path leads to
the object's key. -/
theorem served_iff_route (hreach : (machine dbl opts).Reachable s)
    (hfresh : s.requests r = .fresh) (hcache : s.edge.cache.get key = none)
    (hinflight : s.edge.inflight.get key = none) (hget : storage.get key = .object obj)
    (hsend : ∃ res, send req obj .miss = some res ∧ res.status = 200 ∧ res.body = some obj.body) :
    ServedFrom dbl opts storage s r req key obj.body ↔ route req = .ok key := by
  have hsound : Sound opts s := hreach.invariant (fun _ => Sound.init) fun _ _ _ hn hP => hP.next hn
  constructor
  · rintro ⟨t, hn, hwait, -⟩
    cases step_cases hsound.within hn with
    | request _ ha =>
        cases ha with
        | refused res _ ht =>
            rw [ht] at hwait
            cases (Function.update_self r _ s.requests).symm.trans hwait
        | hit key' entry e uses _ _ _ _ _ _ _ ht =>
            rw [ht] at hwait
            cases (Function.update_self r _ s.requests).symm.trans hwait
        | joined key' f e hroute _ _ _ _ _ ht =>
            rw [ht] at hwait
            cases (Function.update_self r _ s.requests).symm.trans hwait
            exact hroute
        | fetched key' e hroute _ _ _ _ _ ht =>
            rw [ht] at hwait
            cases (Function.update_self r _ s.requests).symm.trans hwait
            exact hroute
  · intro hroute
    have hn : (machine dbl opts).next s (.request r req) = some (s.handle opts r req) := by
      simp [machine, St.next, hsound.within.running, hfresh]
    have hsound' := hsound.next hn
    generalize s.handle opts r req = t at hn hsound'
    -- nothing is cached and nothing under way, so the request begins a fetch of its own
    have harrive : t.requests r = .waiting req key s.nextFetch ∧
        t.fetches s.nextFetch = some ⟨key, none, false⟩ := by
      cases step_cases hsound.within hn with
      | request _ ha =>
          cases ha with
          | refused res hroute' _ =>
              rw [hroute] at hroute'
              cases hroute'
          | hit key' entry e uses hroute' hget' _ _ _ _ _ _ =>
              rw [hroute] at hroute'
              cases hroute'
              rw [hcache] at hget'
              cases hget'
          | joined key' f e hroute' hget' _ _ _ _ _ =>
              rw [hroute] at hroute'
              cases hroute'
              rw [hinflight] at hget'
              cases hget'
          | fetched key' e hroute' _ _ _ _ _ ht =>
              rw [hroute] at hroute'
              cases hroute'
              rw [ht]
              exact ⟨Function.update_self .., Function.update_self ..⟩
    obtain ⟨hwait, hf⟩ := harrive
    refine ⟨t, hn, hwait, hf, ?_, answers hsound' hwait hf⟩
    intro u as hr res hres
    have hfrom : FetchedFrom storage s.nextFetch key u :=
      FetchedFrom.run ⟨none, false, hf, by simp⟩ hsound' hr
    -- it waits for that fetch to the end, and is then answered with what it brought
    rcases Awaits.run (Or.inl hwait) hsound' hr.always with hwait' | ⟨result, hf', hres'⟩
    · rw [hres] at hwait'
      cases hwait'
    · obtain ⟨result', ended, hf'', hresult⟩ := hfrom
      rw [hf'] at hf''
      cases hf''
      rw [hres] at hres'
      obtain rfl : res = reply req result := Phase.answered.inj hres'
      obtain ⟨res, hsend, hstatus, hbody⟩ := hsend
      have hreply : reply req result = res := by
        rw [hresult result rfl, hget]
        simp [reply, hsend]
      rw [hreply]
      exact ⟨hstatus, hbody⟩

end

/-! ## The answer -/

/-- Every content type of the table, and the default, may stand in a header. -/
theorem validHeader_type (ext : String) :
    validHeader ((TYPES.lookup ext).getD "application/octet-stream") = true := by
  cases h : TYPES.lookup ext with
  | none => decide
  | some contentType =>
      obtain ⟨front, rest, heq, -⟩ := List.lookup_eq_some_iff.mp h
      have hmem : (ext, contentType) ∈ TYPES := by
        rw [heq]
        simp
      have hall : ∀ p ∈ TYPES, validHeader p.2 = true := by decide
      exact hall _ hmem

/-- The text of a number may stand in a header. -/
theorem validHeader_nat (n : ℕ) : validHeader (toString n) = true := by
  unfold validHeader
  rw [List.all_eq_true]
  intro c hc
  have hdigit := (toString_nat n).2.1 c hc
  have hrange : 48 ≤ c.toNat ∧ c.toNat ≤ 57 := by
    simpa [Char.isDigit, Char.le_def, UInt32.le_iff_toNat_le] using hdigit
  simp only [Bool.or_eq_true, Bool.and_eq_true, decide_eq_true_eq]
  omega

/-- An object with headers that can be sent is sent. -/
theorem send_get {obj : StoredObject} {url : String} {x : XCache}
    (hcontrol : ∀ v ∈ obj.cacheControl, validHeader v = true)
    (hetag : ∀ v ∈ obj.etag, validHeader v = true)
    (htype : ∀ v ∈ obj.contentType, validHeader v = true) :
    ∃ res, send ⟨"GET", url, none⟩ obj x = some res ∧ res.status = 200 ∧
      res.body = some obj.body := by
  have hopt : ∀ (header : String) (o : Option String), (∀ v ∈ o, validHeader v = true) →
      ((truthy o).map (Prod.mk header)).toList.all (fun h => validHeader h.2) = true := by
    intro header o ho
    rw [List.all_eq_true]
    intro p hp
    rw [Option.mem_toList, Option.map_eq_some_iff] at hp
    obtain ⟨v, hv, rfl⟩ := hp
    exact ho v (Option.eq_some_of_filter_eq_some hv)
  have hmatch : ((truthy obj.etag).any fun etag => etagMatches none etag) = false := by
    cases truthy obj.etag with
    | none => rfl
    | some etag => rfl
  unfold send
  simp only [hmatch]
  rw [if_neg (by decide)]
  refine ⟨_, if_pos ?_, rfl, rfl⟩
  simp only [List.all_append, hopt _ _ hcontrol, hopt _ _ hetag, hopt _ _ htype, List.all_cons,
    List.all_nil, validHeader_nat]
  cases x <;> decide

/-- The published object is in the storage, and can be sent. -/
theorem published_object (sha256 : Digest) (storage : Storage) (name : String)
    (body : List UInt8) (url : String) :
    ∃ obj, (publishAsset sha256 name body storage).2.get
        (publishAsset sha256 name body storage).1.key = .object obj ∧ obj.body = body ∧
      ∃ res, send ⟨"GET", url, none⟩ obj .miss = some res ∧ res.status = 200 ∧
        res.body = some obj.body := by
  refine ⟨_, by simp [publishAsset, Storage.get, Storage.put]; rfl, rfl, send_get ?_ ?_ ?_⟩
  · rintro v ⟨⟩
    decide
  · exact storage.etag_valid body
  · rintro v ⟨⟩
    exact validHeader_type _

/-- The key of a published asset, and what the edge asks of it. -/
theorem published_key (sha256 : Digest) (storage : Storage) {name : String} (body : List UInt8)
    (hdots : "..".toList ∉ split '/' name.toList) :
    startsWith "assets/".toList (publishAsset sha256 name body storage).1.key.toList = true ∧
    "..".toList ∉ split '/' (publishAsset sha256 name body storage).1.key.toList ∧
    ∀ c ∈ "?%".toList, (c ∈ (publishAsset sha256 name body storage).1.key.toList ↔
      c ∈ name.toList) := by
  have htext : (publishAsset sha256 name body storage).1.key.toList =
      "assets".toList ++ '/' :: hashedName sha256 name.toList body := by
    simp [publishAsset, String.toList_append, String.toList_ofList]
  rw [htext]
  refine ⟨?_, ?_, ?_⟩
  · exact List.isPrefixOf_iff_prefix.mpr ⟨_, rfl⟩
  · rw [split_cons_sep (by decide), List.mem_cons, not_or]
    exact ⟨by decide, hashedName_dots hdots⟩
  · intro c hc
    have hplain : ("?%".toList.all fun c => c ≠ '.' ∧ c ≠ '/' ∧ c ∉ "0123456789abcdef".toList ∧
        c ∉ "assets".toList) = true := by decide
    obtain ⟨hdot, hslash, hdigit, hassets⟩ :=
      of_decide_eq_true (List.all_eq_true.mp hplain c hc)
    rw [List.mem_append, List.mem_cons, mem_hashedName hdot hslash hdigit]
    simp only [hassets, hslash, false_or]

/-- What was published under a name is served at its path, if and only if the name has no `?`
and no `%`. -/
theorem published_served_iff (sha256 : Digest) (dbl : Doubles) (opts : EdgeOptions)
    (storage : Storage) (name : String) (body : List UInt8) (s : St) (r : ℕ)
    (hreach : (machine dbl opts).Reachable s) (hfresh : s.requests r = .fresh)
    (hempty : s.edge.cache.entries = []) (hidle : s.edge.inflight.entries = [])
    (hdots : "..".toList ∉ split '/' name.toList) :
    ServedFrom dbl opts (publishAsset sha256 name body storage).2 s r
        ⟨"GET", (publishAsset sha256 name body storage).1.path, none⟩
        (publishAsset sha256 name body storage).1.key body ↔
      '?' ∉ name.toList ∧ '%' ∉ name.toList := by
  obtain ⟨hstart, hportions, hmem⟩ := published_key sha256 storage body hdots
  obtain ⟨obj, hget, hbody, hsend⟩ := published_object sha256 storage name body
    (publishAsset sha256 name body storage).1.path
  have hcache : ∀ key, s.edge.cache.get key = none := fun key => by simp [JsMap.get, hempty]
  have hinflight : ∀ key, s.edge.inflight.get key = none := fun key => by simp [JsMap.get, hidle]
  have hserved := served_iff_route hreach hfresh (hcache _) (hinflight _) hget hsend
  rw [hbody] at hserved
  rw [hserved, ← hmem '?' (by decide), ← hmem '%' (by decide)]
  exact route_path_iff hstart hportions

/-! ## Two names -/

/-- The bytes of `a{}`. -/
def css : List UInt8 := [97, 123, 125]

/-- The digest of `css`. -/
def cssDigest : Digest where
  hex _ := "5f546eb4606b5c2b7d2a449a5cc2bbb477ed5a246c7051ce871b12f2dbfc8419".toList
  length _ := by decide
  digits _ c hc := by
    have hall : ("5f546eb4606b5c2b7d2a449a5cc2bbb477ed5a246c7051ce871b12f2dbfc8419".toList.all
        fun c => c ∈ "0123456789abcdef".toList) = true := by decide
    exact of_decide_eq_true (List.all_eq_true.mp hall c hc)

def newStorage : Storage where
  objects _ := none
  etag _ := some "\"307cc22fa7769c09386c1c90fe36bbc6\""
  etag_valid _ := by decide

/-- Three bytes are published, and served at the path under which they were published. -/
theorem published_served_css : "..".toList ∉ split '/' "app.css".toList ∧
    ServedFrom .unrounded fiveBytes (publishAsset cssDigest "app.css" css newStorage).2 emptyEdge 0
      ⟨"GET", (publishAsset cssDigest "app.css" css newStorage).1.path, none⟩
      (publishAsset cssDigest "app.css" css newStorage).1.key css := by
  have hdots : "..".toList ∉ split '/' "app.css".toList := by decide
  exact ⟨hdots, (published_served_iff cssDigest .unrounded fiveBytes newStorage "app.css" css
    emptyEdge 0 (.init (emptyEdge_init _ _)) rfl rfl rfl hdots).mpr (by decide)⟩

/-- For `what?.css` the edge asks for `assets/what`. -/
theorem query_not_served :
    "..".toList ∉ split '/' "what?.css".toList ∧
    ¬ ServedFrom .unrounded fiveBytes (publishAsset cssDigest "what?.css" css newStorage).2
      emptyEdge 0 ⟨"GET", (publishAsset cssDigest "what?.css" css newStorage).1.path, none⟩
      (publishAsset cssDigest "what?.css" css newStorage).1.key css := by
  have hdots : "..".toList ∉ split '/' "what?.css".toList := by decide
  refine ⟨hdots, ?_⟩
  intro h
  obtain ⟨hstart, hportions, hmem⟩ := published_key cssDigest newStorage css hdots
  obtain ⟨obj, hget, hbody, hsend⟩ := published_object cssDigest newStorage "what?.css" css
    (publishAsset cssDigest "what?.css" css newStorage).1.path
  have hserved := served_iff_route (r := 0)
    (Machine.Reachable.init (emptyEdge_init .unrounded fiveBytes)) rfl rfl rfl hget hsend
  rw [hbody] at hserved
  obtain ⟨hquery, -⟩ := (route_path_iff hstart hportions).mp (hserved.mp h)
  exact hquery ((hmem '?' (by decide)).mpr (by decide))

end Marketplace.Cdn
