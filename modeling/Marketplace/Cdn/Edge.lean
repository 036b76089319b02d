import Marketplace.Core.JsMap
import Marketplace.Core.JsNumber
import Marketplace.Core.JsText
import Marketplace.Core.Machine
import Mathlib.Logic.Function.Basic

/-!
# Cdn.Edge — the edge cache and its request handler

`createEdge` of `src/cdn/edge.ts`. The handler runs without a break up to `await pending`
and from there to its end; between the two, anything else may happen. The promise a
request waits for settles after the fetch has settled and its `finally` callback has run.

The eviction loop is given as many rounds as the cache has entries and one more: after these
the map is empty, and a loop that still runs deletes nothing and changes no counter but its
own, so the process hangs in it. In no reachable state does it get there (`Bounded`).
-/

namespace Marketplace.Cdn

open Core

/-! ## Objects, requests, answers -/

structure StoredObject where
  body : List UInt8
  contentType : Option String
  cacheControl : Option String
  etag : Option String
deriving DecidableEq

structure Request where
  method : String
  url : String
  ifNoneMatch : Option String
deriving DecidableEq

structure Response where
  status : ℕ
  headers : List (String × String)
  body : Option (List UInt8)
deriving DecidableEq

def Response.empty (status : ℕ) : Response := ⟨status, [], none⟩

/-- What `.catch` answers. -/
def badGateway : Response := Response.empty 502

/-- `if (s)` of an optional string. -/
def truthy (s : Option String) : Option String := s.filter fun t => t ≠ ""

/-- The key of a request, or the answer that ends it. -/
def route (req : Request) : Except Response String :=
  match JsText.decodeURIComponent (req.url.toList.takeWhile (· ≠ '?')) with
  | none => .error (Response.empty 400)
  | some decoded =>
      let key := decoded.dropWhile (· = '/')
      if req.method ≠ "GET" ∧ req.method ≠ "HEAD" then
        .error ⟨405, [("allow", "GET, HEAD")], none⟩
      else if ¬ JsText.startsWith "assets/".toList key ∨ "..".toList ∈ JsText.split '/' key then
        .error (Response.empty 404)
      else .ok (String.ofList key)

/-- `tag.trim().replace(/^W\//, '')`. -/
def bare (tag : List Char) : List Char :=
  match JsText.trim tag with
  | 'W' :: '/' :: rest => rest
  | rest => rest

def etagMatches (ifNoneMatch : Option String) (etag : String) : Bool :=
  match truthy ifNoneMatch with
  | none => false
  | some value =>
      (JsText.split ',' value.toList).any fun tag =>
        JsText.trim tag = ['*'] || bare tag = bare etag.toList

example : etagMatches (some "\"a\", W/\"x\"") "\"x\"" = true := by decide +kernel

inductive XCache where
  | hit
  | miss
deriving DecidableEq

def XCache.text : XCache → String
  | .hit => "HIT"
  | .miss => "MISS"

/-- What `writeHead` lets through: tab, printable ASCII and the octets from 0x80. -/
def validHeader (value : String) : Bool :=
  value.toList.all fun c =>
    c.toNat = 9 || (0x20 ≤ c.toNat && c.toNat ≤ 0x7E) || (0x80 ≤ c.toNat && c.toNat ≤ 0xFF)

/-- `writeHead(status, headers).end(body)`; `none` where it throws. -/
def writeHead (status : ℕ) (headers : List (String × String)) (body : Option (List UInt8)) :
    Option Response :=
  if headers.all fun h => validHeader h.2 then some ⟨status, headers, body⟩ else none

def send (req : Request) (obj : StoredObject) (xCache : XCache) : Option Response :=
  let headers := [("x-cache", xCache.text)] ++
    ((truthy obj.cacheControl).map (Prod.mk "cache-control")).toList ++
    ((truthy obj.etag).map (Prod.mk "etag")).toList
  if (truthy obj.etag).any fun etag => etagMatches req.ifNoneMatch etag then
    writeHead 304 headers none
  else
    let headers := headers ++ ((truthy obj.contentType).map (Prod.mk "content-type")).toList ++
      [("content-length", toString obj.body.length)]
    writeHead 200 headers (if req.method = "HEAD" then none else some obj.body)

/-! ## Numbers -/

/-- A limit in bytes: a number, `⊤` for Infinity; `⊥` for NaN and −Infinity, which no
length is at most. -/
abbrev Limit := WithBot (WithTop ℚ)

/-- A count as a limit. -/
def bytes (n : ℤ) : Limit := (((n : ℚ) : WithTop ℚ) : Limit)

def edgeMaxBytes : Limit := bytes (64 * 1024 * 1024)

def edgeMaxObjectBytes : Limit := bytes (10 * 1024 * 1024)

structure EdgeOptions where
  maxBytes : Option Limit
  maxObjectBytes : Option Limit
  maxBytes_nonneg : ∀ m, maxBytes = some m → bytes 0 ≤ m

namespace EdgeOptions

/-- `maxBytes` of `createEdge`. -/
def budget (opts : EdgeOptions) : Limit := opts.maxBytes.getD edgeMaxBytes

/-- `maxObjectBytes` of `createEdge`. -/
def perObject (opts : EdgeOptions) : Limit :=
  min (opts.maxObjectBytes.getD edgeMaxObjectBytes) opts.budget

/-- `n > maxBytes`. -/
def exceeds (opts : EdgeOptions) (n : ℤ) : Prop := opts.budget < bytes n

instance (opts : EdgeOptions) : DecidablePred opts.exceeds :=
  fun n => inferInstanceAs (Decidable (opts.budget < bytes n))

end EdgeOptions

/-- `Number.isFinite(value) && value > 0 ? value : 0` of a number before it is rounded. -/
def positive (dbl : Doubles) (q : ℚ) : ℚ :=
  if 0 < q then
    match dbl.round q with
    | ⊤ => 0
    | (value : ℚ) => if 0 < value then value else 0
  else 0

/-- Lower-casing ASCII is enough: no other letter has one of these words' letters as its
lower case. -/
def cacheableSeconds (dbl : Doubles) (cacheControl : Option String) : ℚ :=
  match truthy cacheControl with
  | none => 0
  | some value =>
      let directives := (JsText.split ',' (value.toList.map Char.toLower)).map JsText.trim
      if directives.any fun d =>
          d = "no-store".toList || d = "private".toList || d = "no-cache".toList then 0
      else if "public".toList ∉ directives then 0
      else
        let sMaxAge := directives.find? (JsText.startsWith "s-maxage=".toList)
        let maxAge := directives.find? (JsText.startsWith "max-age=".toList)
        match (sMaxAge <|> maxAge).bind fun d => (JsText.split '=' d)[1]? with
        -- `Number(undefined)` is NaN
        | none => 0
        | some text => ((JsText.number text).map (positive dbl)).getD 0

/-- `Date.now() + ttl * 1000`. -/
def expiry (dbl : Doubles) (now : ℕ) (ttl : ℚ) : WithTop ℚ :=
  match dbl.round (ttl * 1000) with
  | ⊤ => ⊤
  | (ms : ℚ) => dbl.round (now + ms)

/-! ## The cache -/

structure Entry where
  obj : StoredObject
  expiresAt : WithTop ℚ

def Entry.size (e : Entry) : ℤ := e.obj.body.length

structure EdgeStats where
  hits : ℕ
  misses : ℕ
  originFetches : ℕ
  cachedBytes : ℤ
  evictions : ℕ

structure Edge where
  cache : JsMap String Entry
  inflight : JsMap String ℕ
  stats : EdgeStats

def createEdge : Edge := ⟨JsMap.empty, JsMap.empty, ⟨0, 0, 0, 0, 0⟩⟩

namespace Edge

def drop (key : String) (e : Edge) : Edge :=
  match e.cache.get key with
  | none => e
  | some entry =>
      { e with
        cache := e.cache.delete key
        stats := { e.stats with cachedBytes := e.stats.cachedBytes - entry.size } }

/-- One round of the `while` loop; `drop(undefined)` on an empty map finds nothing. -/
def evictOne (e : Edge) : Edge :=
  let e' := (e.cache.firstKey.map fun key => drop key e).getD e
  { e' with stats := { e'.stats with evictions := e'.stats.evictions + 1 } }

/-- The `while` loop; `none` if it has not ended after so many rounds. -/
def evict (opts : EdgeOptions) : ℕ → Edge → Option Edge
  | 0, _ => none
  | n + 1, e => if opts.exceeds e.stats.cachedBytes then evict opts n (evictOne e) else some e

/-- The new entry, before the `while` loop. -/
def put (key : String) (entry : Entry) (e : Edge) : Edge :=
  let e' := drop key e
  { e' with
    cache := e'.cache.set key entry
    stats := { e'.stats with cachedBytes := e'.stats.cachedBytes + entry.size } }

def store (opts : EdgeOptions) (key : String) (entry : Entry) (e : Edge) : Option Edge :=
  let e' := put key entry e
  evict opts (e'.cache.entries.length + 1) e'

/-- `stats.hits += 1`, and so on. -/
def count (f : EdgeStats → EdgeStats) (e : Edge) : Edge := { e with stats := f e.stats }

end Edge

/-! ## The event loop -/

/-- What `storage.get` settles with. -/
inductive FetchResult where
  | object (obj : StoredObject)
  | nothing
  | failed
deriving DecidableEq

/-- A call of `storage.get`; `ended` once the `finally` callback has run. -/
structure Fetch where
  key : String
  result : Option FetchResult
  ended : Bool
deriving DecidableEq

inductive Phase where
  | fresh
  | waiting (req : Request) (key : String) (fetch : ℕ)
  | answered (res : Response)
deriving DecidableEq

def Phase.response : Phase → Option Response
  | .answered res => some res
  | .fresh | .waiting _ _ _ => none

/-- `uses` is a log of the keys stored or served as HIT. A process caught in a loop has
`hung`. -/
structure St where
  now : ℕ
  edge : Edge
  fetches : ℕ → Option Fetch
  nextFetch : ℕ
  requests : ℕ → Phase
  uses : List String
  hung : Bool

inductive Label where
  /-- a request arrives, and is handled up to its first `await` -/
  | request (r : ℕ) (req : Request)
  /-- `storage.get` settles -/
  | settle (f : ℕ) (result : FetchResult)
  /-- the `finally` callback -/
  | ended (f : ℕ)
  /-- a waiting request goes on -/
  | resume (r : ℕ)
  | tick (now : ℕ)

/-- The last moment a `Date` can be at. -/
def maxTime : ℕ := 8640000000000000

namespace St

def answer (r : ℕ) (res : Response) (s : St) : St :=
  { s with requests := Function.update s.requests r (.answered res) }

/-- `store(key, entry)` and then `send`, whose exception `.catch` turns into a 502. -/
def storeAndSend (opts : EdgeOptions) (r : ℕ) (req : Request) (key : String) (entry : Entry)
    (xCache : XCache) (s : St) : St :=
  match s.edge.store opts key entry with
  | none => { s with hung := true }
  | some edge =>
      answer r ((send req entry.obj xCache).getD badGateway)
        { s with edge, uses := s.uses ++ [key] }

/-- From `stats.misses += 1` to `await pending`. -/
def miss (r : ℕ) (req : Request) (key : String) (s : St) : St :=
  let edge := s.edge.count fun stats => { stats with misses := stats.misses + 1 }
  match edge.inflight.get key with
  | some f => { s with edge, requests := Function.update s.requests r (.waiting req key f) }
  | none =>
      let edge := edge.count fun stats => { stats with originFetches := stats.originFetches + 1 }
      { s with
        edge := { edge with inflight := edge.inflight.set key s.nextFetch }
        fetches := Function.update s.fetches s.nextFetch (some ⟨key, none, false⟩)
        nextFetch := s.nextFetch + 1
        requests := Function.update s.requests r (.waiting req key s.nextFetch) }

def handle (opts : EdgeOptions) (r : ℕ) (req : Request) (s : St) : St :=
  match route req with
  | .error res => s.answer r res
  | .ok key =>
      match s.edge.cache.get key with
      | some cached =>
          if ((s.now : ℚ) : WithTop ℚ) < cached.expiresAt then
            let edge := s.edge.count fun stats => { stats with hits := stats.hits + 1 }
            { s with edge }.storeAndSend opts r req key cached .hit
          else { s with edge := s.edge.drop key }.miss r req key
      | none => s.miss r req key

/-- After `await pending`. -/
def finish (dbl : Doubles) (opts : EdgeOptions) (r : ℕ) (req : Request) (key : String)
    (result : FetchResult) (s : St) : St :=
  match result with
  | .failed => s.answer r badGateway
  | .nothing => s.answer r ⟨404, [("x-cache", "MISS")], none⟩
  | .object obj =>
      let ttl := cacheableSeconds dbl obj.cacheControl
      if 0 < ttl ∧ bytes obj.body.length ≤ opts.perObject then
        s.storeAndSend opts r req key ⟨obj, expiry dbl s.now ttl⟩ .miss
      else s.answer r ((send req obj .miss).getD badGateway)

def next (dbl : Doubles) (opts : EdgeOptions) (s : St) (l : Label) : Option St :=
  if s.hung then none
  else match l with
    | .request r req => if s.requests r = .fresh then some (s.handle opts r req) else none
    | .settle f result =>
        match s.fetches f with
        | some ⟨key, none, false⟩ =>
            some { s with fetches := Function.update s.fetches f (some ⟨key, some result, false⟩) }
        | _ => none
    | .ended f =>
        match s.fetches f with
        | some ⟨key, some result, false⟩ =>
            some { s with
              edge := { s.edge with inflight := s.edge.inflight.delete key }
              fetches := Function.update s.fetches f (some ⟨key, some result, true⟩) }
        | _ => none
    | .resume r =>
        match s.requests r with
        | .waiting req key f =>
            match s.fetches f with
            | some ⟨_, some result, true⟩ => some (s.finish dbl opts r req key result)
            | _ => none
        | _ => none
    | .tick now => if now ≤ maxTime then some { s with now } else none

def Init (s : St) : Prop :=
  s.now ≤ maxTime ∧ s.edge = createEdge ∧ (∀ f, s.fetches f = none) ∧ s.nextFetch = 0 ∧
    (∀ r, s.requests r = .fresh) ∧ s.uses = [] ∧ s.hung = false

end St

/-- The edge under any requests, any answers of the storage and any clock. -/
def machine (dbl : Doubles) (opts : EdgeOptions) : Machine St Label :=
  ⟨St.Init, St.next dbl opts⟩

end Marketplace.Cdn
