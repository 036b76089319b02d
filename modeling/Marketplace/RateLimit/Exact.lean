import Marketplace.RateLimit.SlidingWindow
import Mathlib.Data.List.Induction

/-!
# RateLimit.Exact — the script is the sliding window

After any sequence of hits the entries that the script still looks at are the allowed hits of
the window (`Tracks`), whether or not the server has removed the key at its deadline. So every
answer is the one of `Core.Window`: `window_exact` puts the law together.
-/

namespace Marketplace.RateLimit

open Core Core.Window

variable {gone : ℕ → Log → Bool} {cfg : RateLimitConfig} {key : Option Log} {times : List ℕ}
  {last now t member : ℕ} {hits : List Hit} {h : Hit}

/-- A key is removed at its deadline or later, or not at all. -/
def NotBefore (gone : ℕ → Log → Bool) : Prop := ∀ now log, gone now log = true → log.deadline ≤ now

theorem notBefore_pexpire : NotBefore pexpire := fun _ _ h => of_decide_eq_true h

/-- The scores a run of the script at `now` looks at. -/
def liveScores (gone : ℕ → Log → Bool) (window now : ℕ) (key : Option Log) : List ℕ :=
  (((key.filter fun l => !gone now l).map fun l => trim window now l.entries).getD []).map
    Entry.score

/-- The answer to a hit at `now` after the allowed hits `times`. -/
def answer (cfg : RateLimitConfig) (times : List ℕ) (now : ℕ) : RateLimitDecision :=
  let inWindow := within cfg.windowMs now times
  if inWindow.length < cfg.limit then ⟨true, cfg.limit - inWindow.length - 1, 0⟩
  else ⟨false, 0, (inWindow.headD 0 : ℤ) + cfg.windowMs - now⟩

/-- The key holds the allowed hits `times`, as far as any later run can see. -/
structure Tracks (gone : ℕ → Log → Bool) (window : ℕ) (key : Option Log) (times : List ℕ)
    (last : ℕ) : Prop where
  sorted : times.Pairwise (· ≤ ·)
  le : ∀ u ∈ times, u ≤ last
  scores : ∀ now, last ≤ now → liveScores gone window now key = within window now times
  /-- When the key goes, no hit of it is in a window any more. -/
  deadline : ∀ log, key = some log → ∀ u ∈ times, u + window ≤ log.deadline

/-- An entry with the greatest score goes to the end. -/
theorem zadd_scores {entries : List Entry} (hsorted : (entries.map Entry.score).Pairwise (· ≤ ·))
    (hle : ∀ e ∈ entries, e.score ≤ now) :
    (zadd now member entries).map Entry.score = entries.map Entry.score ++ [now] := by
  induction entries with
  | nil => rfl
  | cons e rest ih =>
      rw [List.map_cons, List.pairwise_cons] at hsorted
      have hhead := hle e List.mem_cons_self
      have hrest : ∀ e' ∈ rest, e'.score ≤ now := fun e' he' => hle e' (List.mem_cons_of_mem _ he')
      unfold zadd
      rw [List.orderedInsert]
      split
      · next hbefore =>
          -- `e` comes after the new entry only if its score is the same, and so are all others
          have heq : e.score = now := by
            unfold Entry.le at hbefore
            dsimp only at hbefore
            omega
          have hall : ∀ s ∈ rest.map Entry.score, s = now := by
            intro s hs
            rcases List.mem_map.mp hs with ⟨e', he', rfl⟩
            have h₁ := hsorted.1 e'.score hs
            have h₂ := hrest e' he'
            omega
          rw [List.map_cons, List.map_cons, heq, List.eq_replicate_of_mem hall]
          simp [← List.replicate_succ, ← List.replicate_succ']
      · rw [List.map_cons, List.map_cons, List.cons_append]
        exact congrArg (e.score :: ·) (ih hsorted.2 hrest)

/-- The trim drops exactly the hits that have left the window. -/
theorem trim_scores {window : ℕ} {entries : List Entry} :
    (trim window now entries).map Entry.score =
      (entries.map Entry.score).filter fun u => decide (now < u + window) := by
  unfold trim
  rw [List.filter_map]
  refine congrArg (List.map Entry.score) (List.filter_congr ?_)
  intro e _
  rw [Function.comp, Bool.eq_iff_iff, Bool.not_eq_true', decide_eq_false_iff_not, decide_eq_true_eq]
  omega

/-- The answer of the script is the one of the window. -/
theorem slidingWindow_answer (ht : Tracks gone cfg.windowMs key times last) (hnow : last ≤ now) :
    (slidingWindow gone cfg now member key).2 = answer cfg times now := by
  have hscores := ht.scores now hnow
  have hentries : ((((key.filter fun l => !gone now l).map fun l =>
      { l with entries := trim cfg.windowMs now l.entries }).map Log.entries).getD []).map
        Entry.score = within cfg.windowMs now times := by
    rw [← hscores]
    unfold liveScores
    rw [Option.map_map]
    rfl
  have hlength := congrArg List.length hentries
  rw [List.length_map] at hlength
  unfold slidingWindow answer
  dsimp only
  rw [hlength]
  split
  · rfl
  · rw [hentries]

/-- The hits that still count: none once the key is gone, and otherwise those in the window. -/
theorem liveScores_some {window : ℕ} {log : Log} : liveScores gone window now (some log) =
    if gone now log then [] else
      (log.entries.map Entry.score).filter fun u => decide (now < u + window) := by
  unfold liveScores
  rw [Option.filter_some]
  cases gone now log with
  | true => rfl
  | false => exact trim_scores

/-- A window that begins at or after the last hit is empty. -/
theorem within_eq_nil {window : ℕ} (h : ∀ u ∈ times, u + window ≤ now) :
    within window now times = [] := by
  rw [within, List.filter_eq_nil_iff]
  intro u hu
  have hle := h u hu
  rw [decide_eq_true_eq]
  omega

/-- A key whose scores are those of the window at `now` tracks them from then on. -/
theorem tracks_of_scores {window : ℕ} {log : Log} (hgone : NotBefore gone)
    (hsorted : times.Pairwise (· ≤ ·)) (hle : ∀ u ∈ times, u ≤ now)
    (hdeadline : ∀ u ∈ times, u + window ≤ log.deadline)
    (hscores : log.entries.map Entry.score = within window now times) :
    Tracks gone window (some log) times now where
  sorted := hsorted
  le := hle
  scores now' hnow' := by
    rw [liveScores_some]
    split
    · next hg =>
        have hdead := hgone now' log hg
        refine (within_eq_nil ?_).symm
        intro u hu
        exact (hdeadline u hu).trans hdead
    · rw [hscores, within_later hle hnow']
  deadline log' hlog' := by
    cases hlog'
    exact hdeadline

theorem pairwise_within {window : ℕ} (h : times.Pairwise (· ≤ ·)) :
    (within window now times).Pairwise (· ≤ ·) :=
  h.filter _

/-- The key after the script tracks the hits allowed by then. -/
theorem slidingWindow_tracks (hgone : NotBefore gone)
    (ht : Tracks gone cfg.windowMs key times last) (hnow : last ≤ now) :
    Tracks gone cfg.windowMs (slidingWindow gone cfg now member key).1
      (enter cfg.limit cfg.windowMs times now) now := by
  have hle : ∀ u ∈ times, u ≤ now := fun u hu => (ht.le u hu).trans hnow
  have hscores := ht.scores now hnow
  -- the entries the script has after the trim
  generalize hlog : (key.filter fun l => !gone now l).map (fun l =>
    ({ l with entries := trim cfg.windowMs now l.entries } : Log)) = log
  have hentries : ((log.map Log.entries).getD []).map Entry.score =
      within cfg.windowMs now times := by
    rw [← hscores, ← hlog]
    unfold liveScores
    rw [Option.map_map]
    rfl
  have hlength : ((log.map Log.entries).getD []).length =
      (within cfg.windowMs now times).length := by
    rw [← hentries, List.length_map]
  unfold slidingWindow enter
  dsimp only
  rw [hlog, hlength]
  split
  · -- allowed: the new hit is the last one, and the deadline is its own
    have hall : ∀ u ∈ times ++ [now], u ≤ now := by
      intro u hu
      rcases List.mem_append.mp hu with hu | hu
      · exact hle u hu
      · exact Nat.le_of_eq (List.mem_singleton.mp hu)
    apply tracks_of_scores hgone
    · rw [List.pairwise_append]
      refine ⟨ht.sorted, List.pairwise_singleton .., ?_⟩
      intro u hu v hv
      rw [List.mem_singleton.mp hv]
      exact hle u hu
    · exact hall
    · intro u hu
      exact Nat.add_le_add_right (hall u hu) _
    · rw [within_append, within_self cfg.windowMs_pos, ← hentries]
      apply zadd_scores
      · rw [hentries]
        exact pairwise_within ht.sorted
      · intro e he
        have hmem : e.score ∈ within cfg.windowMs now times := by
          rw [← hentries]
          exact List.mem_map_of_mem he
        exact (mem_within.mp hmem).2.2
  · next hfull =>
      -- blocked: there are entries, so the key is there
      cases log with
      | none =>
          rw [← hentries] at hfull
          exact absurd cfg.limit_pos hfull
      | some log =>
          have hkey : ∃ l, key = some l ∧ log.deadline = l.deadline := by
            rw [Option.map_eq_some_iff] at hlog
            rcases hlog with ⟨l, hl, rfl⟩
            exact ⟨l, (Option.filter_eq_some_iff.mp hl).1, rfl⟩
          rcases hkey with ⟨l, hl, hdead⟩
          apply tracks_of_scores hgone ht.sorted hle
          · intro u hu
            rw [hdead]
            exact ht.deadline l hl u hu
          · exact hentries

/-! ## Sequences of hits -/

/-- A further answer adds its time if it allowed the hit. -/
theorem allowedTimes_append {history : List (ℕ × RateLimitDecision)} {p : ℕ × RateLimitDecision} :
    allowedTimes (history ++ [p]) =
      if p.2.allowed then allowedTimes history ++ [p.1] else allowedTimes history := by
  unfold allowedTimes
  rw [List.filter_append, List.map_append]
  by_cases hp : p.2.allowed = true
  · simp [hp]
  · simp [hp]

/-- Answering a hit is entering it among the allowed times. -/
theorem allowedTimes_answer {history : List (ℕ × RateLimitDecision)} :
    allowedTimes (history ++ [(now, answer cfg (allowedTimes history) now)]) =
      enter cfg.limit cfg.windowMs (allowedTimes history) now := by
  rw [allowedTimes_append]
  unfold answer enter
  dsimp only
  split <;> rfl

/-- A run with one more hit is the run, and then the hit. -/
theorem run_append : run gone cfg (hits ++ [h]) = (run gone cfg hits).hit gone cfg h := by
  unfold run
  rw [List.foldl_append]
  rfl

/-- Hits at times that do not go back. -/
def InOrder (hits : List Hit) : Prop := hits.Pairwise fun a b => a.now ≤ b.now

theorem InOrder.append (ho : InOrder (hits ++ [h])) : InOrder hits ∧ ∀ x ∈ hits, x.now ≤ h.now := by
  have hpair := List.pairwise_append.mp ho
  exact ⟨hpair.1, fun x hx => hpair.2.2 x hx h (List.mem_singleton.mpr rfl)⟩

/-- The set still tracks the times later on, since what has left the window is not asked for. -/
theorem Tracks.later {window : ℕ} (ht : Tracks gone window key times last) (h : last ≤ t) :
    Tracks gone window key times t where
  sorted := ht.sorted
  le u hu := (ht.le u hu).trans h
  scores now hnow := ht.scores now (h.trans hnow)
  deadline := ht.deadline

/-- Without a key there is nothing to track. -/
theorem Tracks.none {window : ℕ} : Tracks gone window none [] t where
  sorted := List.Pairwise.nil
  le u hu := by cases hu
  scores _ _ := rfl
  deadline log hlog := by cases hlog

/-- One hit: the answer is that of the window, and the key keeps track. -/
theorem hit_spec {s : Limiter} (hgone : NotBefore gone)
    (ht : Tracks gone cfg.windowMs s.key (allowedTimes s.history) h.now) :
    (s.hit gone cfg h).history =
      s.history ++ [(h.now, answer cfg (allowedTimes s.history) h.now)] ∧
    Tracks gone cfg.windowMs (s.hit gone cfg h).key (allowedTimes (s.hit gone cfg h).history)
      h.now := by
  have hhistory : (s.hit gone cfg h).history =
      s.history ++ [(h.now, answer cfg (allowedTimes s.history) h.now)] := by
    unfold Limiter.hit
    dsimp only
    rw [slidingWindow_answer ht (Nat.le_refl _)]
  refine ⟨hhistory, ?_⟩
  rw [hhistory, allowedTimes_answer]
  exact slidingWindow_tracks hgone ht (Nat.le_refl _)

/-- After any hits in order the sorted set holds the allowed times that count. -/
theorem run_tracks (cfg : RateLimitConfig) (hgone : NotBefore gone) (ho : InOrder hits) (ht : ∀ x ∈ hits, x.now ≤ t) :
    Tracks gone cfg.windowMs (run gone cfg hits).key (allowedTimes (run gone cfg hits).history)
      t := by
  induction hits using List.reverseRecOn generalizing t with
  | nil => exact Tracks.none
  | append_singleton hits h ih =>
      rcases ho.append with ⟨ho', hle⟩
      rw [run_append]
      exact (hit_spec hgone (ih ho' hle)).2.later (ht h (by simp))

/-- The answers are those of the window, whenever the server removes the key. -/
theorem run_history (hgone : NotBefore gone) (ho : InOrder (hits ++ [h])) :
    (run gone cfg (hits ++ [h])).history = (run gone cfg hits).history ++
      [(h.now, answer cfg (allowedTimes (run gone cfg hits).history) h.now)] := by
  rcases ho.append with ⟨ho', hle⟩
  rw [run_append]
  exact (hit_spec hgone (run_tracks cfg hgone ho' hle)).1

/-- When the server removes a key that has expired makes no difference to any answer. -/
theorem history_eq (hgone : NotBefore gone) (ho : InOrder hits) :
    (run gone cfg hits).history = (run pexpire cfg hits).history := by
  induction hits using List.reverseRecOn with
  | nil => rfl
  | append_singleton hits h ih =>
      rw [run_history hgone ho, run_history notBefore_pexpire ho, ih ho.append.1]

/-! ## The law -/

/-- When the hits of a sequence were allowed. -/
def allowed (cfg : RateLimitConfig) (hits : List Hit) : List ℕ :=
  allowedTimes (run pexpire cfg hits).history

theorem decision_eq (ho : InOrder (hits ++ [h])) :
    decision cfg hits h = answer cfg (allowed cfg hits) h.now :=
  slidingWindow_answer (run_tracks cfg notBefore_pexpire ho.append.1 ho.append.2) (Nat.le_refl _)

theorem allowed_append (ho : InOrder (hits ++ [h])) :
    allowed cfg (hits ++ [h]) = enter cfg.limit cfg.windowMs (allowed cfg hits) h.now := by
  unfold allowed
  rw [run_history notBefore_pexpire ho, allowedTimes_answer]

theorem allowed_le (cfg : RateLimitConfig) (ho : InOrder hits) (ht : ∀ x ∈ hits, x.now ≤ t) :
    ∀ u ∈ allowed cfg hits, u ≤ t :=
  (run_tracks cfg notBefore_pexpire ho ht).le

theorem allowed_sorted (cfg : RateLimitConfig) (ho : InOrder hits) (ht : ∀ x ∈ hits, x.now ≤ t) :
    (allowed cfg hits).Pairwise (· ≤ ·) :=
  (run_tracks cfg notBefore_pexpire ho ht).sorted

/-- In no window are more hits allowed than the limit. -/
theorem allowed_bounded (cfg : RateLimitConfig) (ho : InOrder hits) :
    Bounded cfg.limit cfg.windowMs (allowed cfg hits) := by
  induction hits using List.reverseRecOn with
  | nil => exact Bounded.nil
  | append_singleton hits h ih =>
      rcases ho.append with ⟨ho', hle⟩
      rw [allowed_append ho]
      exact (ih ho').enter (allowed_le cfg ho' hle)

/-- A hit is allowed exactly if the window in front of it is not full. -/
theorem answer_allowed_iff : (answer cfg times now).allowed = true ↔
    (within cfg.windowMs now times).length < cfg.limit := by
  unfold answer
  dsimp only
  split
  · next hlt => exact ⟨fun _ => hlt, fun _ => rfl⟩
  · next hge =>
      constructor
      · intro h
        cases h
      · intro hlt
        exact absurd hlt hge

/-- The number of hits still allowed in the window. -/
theorem answer_remaining (hb : Bounded cfg.limit cfg.windowMs times) : (answer cfg times now).remaining =
    cfg.limit - (within cfg.windowMs now (enter cfg.limit cfg.windowMs times now)).length := by
  have hfull := hb now
  unfold answer enter
  dsimp only
  split
  · rw [within_append, within_self cfg.windowMs_pos, List.length_append, List.length_singleton]
    push_cast
    omega
  · dsimp only
    omega

/-- A blocked hit at `now`: how long it has to wait, and that waiting so long is enough and no
less is. -/
theorem answer_wait (next : ℕ) (hsorted : times.Pairwise (· ≤ ·)) (hle : ∀ u ∈ times, u ≤ now)
    (hb : Bounded cfg.limit cfg.windowMs times) (hd : (answer cfg times now).allowed = false)
    (hnext : now ≤ next) :
    1 ≤ (answer cfg times now).retryAfterMs ∧
    (answer cfg times now).retryAfterMs ≤ cfg.windowMs ∧
    ((answer cfg times next).allowed = true ↔
      (now : ℤ) + (answer cfg times now).retryAfterMs ≤ next) := by
  have hfull : (within cfg.windowMs now times).length = cfg.limit := by
    have hle := hb now
    have hnot : ¬ (within cfg.windowMs now times).length < cfg.limit := by
      rw [← answer_allowed_iff, hd]
      exact Bool.false_ne_true
    omega
  -- the window is not empty, since the limit is positive
  cases hw : within cfg.windowMs now times with
  | nil =>
      rw [hw] at hfull
      exact absurd hfull (Nat.ne_of_lt cfg.limit_pos)
  | cons u rest =>
      have hu : u ∈ within cfg.windowMs now times := by
        rw [hw]
        exact List.mem_cons_self
      rcases mem_within.mp hu with ⟨-, hlo, hhi⟩
      have hrest : ∀ x ∈ rest, u ≤ x := by
        have hpair : (within cfg.windowMs now times).Pairwise (· ≤ ·) := pairwise_within hsorted
        rw [hw] at hpair
        exact (List.pairwise_cons.mp hpair).1
      have hretry : (answer cfg times now).retryAfterMs = (u : ℤ) + cfg.windowMs - now := by
        unfold answer
        dsimp only
        rw [if_neg (by rw [hfull]; exact Nat.lt_irrefl _), hw]
        rfl
      rw [hretry]
      refine ⟨by omega, by omega, ?_⟩
      rw [answer_allowed_iff, within_wait hle hnext hw hrest hfull]
      omega

/-- The seconds of the header cover the milliseconds of the decision. -/
theorem le_retryAfterSec {d : RateLimitDecision} : d.retryAfterMs ≤ 1000 * retryAfterSec d := by
  have hceil : (d.retryAfterMs : ℚ) / 1000 ≤ ⌈(d.retryAfterMs : ℚ) / 1000⌉ := Int.le_ceil _
  have hmul : (d.retryAfterMs : ℚ) ≤ 1000 * (⌈(d.retryAfterMs : ℚ) / 1000⌉ : ℚ) := by linarith
  have hint : d.retryAfterMs ≤ 1000 * ⌈(d.retryAfterMs : ℚ) / 1000⌉ := by exact_mod_cast hmul
  have hmax : ⌈(d.retryAfterMs : ℚ) / 1000⌉ ≤ retryAfterSec d := le_max_right _ _
  omega

/-- The limiter, for any hits in order and one more. -/
theorem window_exact (cfg : RateLimitConfig) (hits : List Hit) (h : Hit)
    (ho : InOrder (hits ++ [h])) :
    (∀ t, (within cfg.windowMs t (allowed cfg (hits ++ [h]))).length ≤ cfg.limit) ∧
    ((decision cfg hits h).allowed = false ↔
      (within cfg.windowMs h.now (allowed cfg hits)).length = cfg.limit) ∧
    (decision cfg hits h).remaining =
      cfg.limit - (within cfg.windowMs h.now (allowed cfg (hits ++ [h]))).length ∧
    ((decision cfg hits h).allowed = false →
      1 ≤ (decision cfg hits h).retryAfterMs ∧
      (decision cfg hits h).retryAfterMs ≤ cfg.windowMs ∧
      ∀ next : Hit, h.now ≤ next.now →
        ((decision cfg (hits ++ [h]) next).allowed = true ↔
          (h.now : ℤ) + (decision cfg hits h).retryAfterMs ≤ next.now) ∧
        ((h.now : ℤ) + 1000 * retryAfterSec (decision cfg hits h) ≤ next.now →
          (decision cfg (hits ++ [h]) next).allowed = true)) ∧
    ∀ gone, NotBefore gone →
      (run gone cfg (hits ++ [h])).history = (run pexpire cfg (hits ++ [h])).history := by
  rcases ho.append with ⟨ho', hle⟩
  have hb := allowed_bounded cfg ho'
  have htimes := allowed_le cfg ho' hle
  have hsorted := allowed_sorted cfg ho' hle
  rw [decision_eq ho, allowed_append ho]
  refine ⟨hb.enter htimes, ?_, answer_remaining hb, ?_, fun gone hgone => history_eq hgone ho⟩
  · rw [← Bool.not_eq_true, answer_allowed_iff, Nat.not_lt]
    have hfull := hb h.now
    omega
  · intro hd
    have hwait := fun next => answer_wait next hsorted htimes hb hd
    rcases hwait h.now (Nat.le_refl _) with ⟨hpos, hmax, -⟩
    refine ⟨hpos, hmax, ?_⟩
    intro next hnext
    -- the blocked hit has not changed the hits that were allowed
    have hsame : allowed cfg (hits ++ [h]) = allowed cfg hits := by
      rw [allowed_append ho, enter, if_neg]
      rw [← answer_allowed_iff, hd]
      exact Bool.false_ne_true
    have ho'' : InOrder (hits ++ [h] ++ [next]) := by
      refine List.pairwise_append.mpr ⟨ho, List.pairwise_singleton .., ?_⟩
      intro x hx y hy
      rw [List.mem_singleton.mp hy]
      rcases List.mem_append.mp hx with hx | hx
      · exact (hle x hx).trans hnext
      · rw [List.mem_singleton.mp hx]
        exact hnext
    -- the next hit is allowed once the oldest one that counts has left the window
    have hiff : (decision cfg (hits ++ [h]) next).allowed = true ↔
        (h.now : ℤ) + (answer cfg (allowed cfg hits) h.now).retryAfterMs ≤ next.now := by
      rw [decision_eq ho'', hsame]
      exact (hwait next.now hnext).2.2
    refine ⟨hiff, ?_⟩
    intro hsec
    rw [hiff]
    have hms := le_retryAfterSec (d := answer cfg (allowed cfg hits) h.now)
    omega

/-- Two hits a second: the third is told to wait for the first to leave the window. -/
theorem window_exact_blocked :
    (decision ⟨2, 1000, by decide, by decide⟩ [⟨5000, 0⟩, ⟨5400, 1⟩] ⟨5700, 2⟩).retryAfterMs = 300 ∧
    (within 1000 5700 (allowed ⟨2, 1000, by decide, by decide⟩ [⟨5000, 0⟩, ⟨5400, 1⟩])).length = 2 := by
  refine ⟨by decide, ?_⟩
  have ho : InOrder [⟨5000, 0⟩, ⟨5400, 1⟩, ⟨5700, 2⟩] := by
    simp [InOrder]
  have hlaw := window_exact ⟨2, 1000, by decide, by decide⟩ [⟨5000, 0⟩, ⟨5400, 1⟩] ⟨5700, 2⟩ ho
  exact hlaw.2.1.mp (by decide)

end Marketplace.RateLimit
