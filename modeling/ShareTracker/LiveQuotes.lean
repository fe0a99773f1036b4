import Mathlib
import ShareTracker.DecimalArithmetic
import ShareTracker.Lib.Checked

/-!
Live quotes: remembered ones where they are fresh, and the rest asked of the
provider in chunks of symbols, each answer put back beside its own market.
-/
namespace ShareTracker.LiveQuotes

open Checked

/-! ### Markets and quotes -/

abbrev Symbol := List Char

/-- A listing, and the identity it has now. -/
structure Market where
  listingId : ℕ
  currency : List Char
  priceSymbol : Option Symbol
  symbolOverride : Option Symbol
  ticker : List Char
  exchangeMic : Option (List Char)

/-- A quote of the provider's answer. -/
structure Quote where
  symbol : Symbol
  price : Option Decimal
  asOf : Option ℤ
  currency : List Char
  deriving DecidableEq

structure LatestQuote where
  price : ℚ
  currency : List Char
  asOf : ℤ
  deriving DecidableEq

inductive QuoteError
  | unmapped (mic : List Char)
  | requestFailed (chunk : List Symbol) (reason : List Char)
  | noQuote (symbol : Symbol)
  | noPrice (symbol : Symbol)
  | noTimestamp (symbol : Symbol)
  | noResult
  | skipped
  deriving DecidableEq

abbrev Answer := Except QuoteError LatestQuote

def xasx : List Char := ['X', 'A', 'S', 'X']

def xnys : List Char := ['X', 'N', 'Y', 'S']

def xnas : List Char := ['X', 'N', 'A', 'S']

/-- The symbol of the identity in effect now, which a stored one always speaks for. -/
def yahooSymbolNow (m : Market) : Except QuoteError Symbol :=
  match m.symbolOverride, m.priceSymbol, m.exchangeMic with
  | some symbol, _, _ => .ok symbol
  | none, some symbol, _ => .ok symbol
  | none, none, none => .ok (m.ticker ++ '-' :: m.currency)
  | none, none, some mic =>
    if mic = xasx then .ok (m.ticker ++ ['.', 'A', 'X'])
    else if mic = xnys ∨ mic = xnas then .ok m.ticker
    else .error (.unmapped mic)

/-- Seven significant digits. -/
def cleanPrice (price : Decimal) : ℚ :=
  if price.mantissa = 0 then 0
  else
    let exponent : ℤ := (Nat.toDigits 10 price.mantissa.natAbs).length - 1 - price.scale
    ScaledRounding.atScale (min (6 - exponent).toNat 28) price.value

/-! ### The provider's answers -/

/-- `eq_ignore_ascii_case`. -/
def named (symbol : Symbol) (quote : Quote) : Bool :=
  quote.symbol.map Char.toLower = symbol.map Char.toLower

def readQuote (symbol : Symbol) (quote : Quote) : Answer := do
  let price ← orRefuse quote.price (.noPrice symbol)
  let asOf ← orRefuse quote.asOf (.noTimestamp symbol)
  pure ⟨cleanPrice price, quote.currency, asOf⟩

def yahooQuoteNamed (quotes : List Quote) (symbol : Symbol) : Answer := do
  let quote ← orRefuse (quotes.find? (named symbol)) (.noQuote symbol)
  readQuote symbol quote

/-- `slice::chunks`. -/
def chunksWithin (size : ℕ) : ℕ → List Symbol → List (List Symbol)
  | 0, _ => []
  | _ + 1, [] => []
  | fuel + 1, s :: rest =>
    (s :: rest).take size :: chunksWithin size fuel ((s :: rest).drop size)

def quoteBatchSymbols : ℕ := 50

/-- The symbols asked for, once each and in order. -/
def wanted (markets : List Market) : List Symbol :=
  ((markets.filterMap fun m => (yahooSymbolNow m).toOption).dedup).mergeSort fun a b => decide (a ≤ b)

def chunks (markets : List Market) : List (List Symbol) :=
  chunksWithin quoteBatchSymbols (wanted markets).length (wanted markets)

structure Answers where
  quotes : List Quote
  failures : List (Symbol × QuoteError)

section Batch
variable (request : List Symbol → Except (List Char) (List Quote))

def askChunk (answers : Answers) (chunk : List Symbol) : Answers :=
  match request chunk with
  | .ok answered => { answers with quotes := answers.quotes ++ answered }
  | .error reason =>
    { answers with
      failures := answers.failures ++ chunk.map fun symbol => (symbol, .requestFailed chunk reason) }

def askAll (markets : List Market) : Answers :=
  (chunks markets).foldl (askChunk request) ⟨[], []⟩

/-- A market's own part of the answers. -/
def Answers.quoteOf (answers : Answers) (m : Market) : Answer := do
  let symbol ← yahooSymbolNow m
  refuseSome (answers.failures.lookup symbol)
  yahooQuoteNamed answers.quotes symbol

/-- The batching fetcher's `latest_quotes`. -/
def yahooQuotes (markets : List Market) : List Answer :=
  markets.map (askAll request markets).quoteOf

end Batch

/-! ### The cache -/

/-- Each listing's last quote and when it was fetched; a poisoned lock answers nothing. -/
structure Cache where
  entries : ℕ → Option (ℕ × LatestQuote)
  poisoned : Bool

namespace Cache

def remembered (cache : Cache) (ttl now listingId : ℕ) : Option LatestQuote :=
  if cache.poisoned then none
  else (cache.entries listingId).bind fun (fetchedAt, quote) =>
    if now - fetchedAt < ttl then some quote else none

/-- A market's remembered quote at its own reading of the clock. -/
def hit (cache : Cache) (ttl : ℕ) (a : Market × ℕ) : Option LatestQuote :=
  cache.remembered ttl a.2 a.1.listingId

def remember (cache : Cache) (now listingId : ℕ) (quote : LatestQuote) : Cache :=
  if cache.poisoned then cache
  else { cache with entries := Function.update cache.entries listingId (some (now, quote)) }

end Cache

/-- `Vec::resize_with`. -/
def resizeWith {α : Type} (length : ℕ) (filler : α) (l : List α) : List α :=
  l.take length ++ List.replicate (length - l.length) filler

/-- The remembered quotes, and the fetched ones in the places between them. -/
def fill : List (Option LatestQuote) → List Answer → List Answer
  | [], _ => []
  | some quote :: hits, fetched => .ok quote :: fill hits fetched
  | none :: hits, answer :: fetched => answer :: fill hits fetched
  | none :: hits, [] => .error .skipped :: fill hits []

/-- What a call answers, and the quotes it then remembers. -/
structure Served where
  answers : List Answer
  toRemember : List (ℕ × LatestQuote)

/-- The caching fetcher's `latest_quotes`: each market is looked up at its own
reading of the clock. -/
def latestQuotes (inner : List Market → List Answer) (cache : Cache) (ttl : ℕ)
    (asked : List (Market × ℕ)) : Served :=
  let remembered := asked.map (cache.hit ttl)
  let misses := ((asked.zip remembered).filter fun x => x.2.isNone).map fun x => x.1.1
  if misses.isEmpty then ⟨(remembered.filterMap fun found => found).map .ok, []⟩
  else
    let fetched := resizeWith misses.length (.error .noResult) (inner misses)
    ⟨fill remembered fetched,
      (misses.zip fetched).filterMap fun x =>
        x.2.toOption.map fun quote => (x.1.listingId, quote)⟩

/-! ### The chunks -/

section Chunks

theorem flatten_chunksWithin {size fuel : ℕ} (hsize : 0 < size) {l : List Symbol}
    (h : l.length ≤ fuel) : (chunksWithin size fuel l).flatten = l := by
  induction fuel generalizing l with
  | zero =>
    rw [List.length_eq_zero_iff.mp (Nat.le_zero.mp h)]
    rfl
  | succ fuel ih =>
    cases l with
    | nil => rfl
    | cons s rest =>
      have hdrop : ((s :: rest).drop size).length ≤ fuel := by
        rw [List.length_drop]
        omega
      rw [chunksWithin, List.flatten_cons, ih hdrop, List.take_append_drop]

theorem flatten_chunks (markets : List Market) : (chunks markets).flatten = wanted markets :=
  flatten_chunksWithin (by decide) le_rfl

theorem mem_wanted {markets : List Market} {symbol : Symbol} :
    symbol ∈ wanted markets ↔ ∃ m ∈ markets, yahooSymbolNow m = .ok symbol := by
  unfold wanted
  rw [List.mem_mergeSort, List.mem_dedup, List.mem_filterMap]
  refine exists_congr fun m => and_congr_right fun _ => ?_
  cases yahooSymbolNow m with
  | error e => simp [Except.toOption]
  | ok s => simp [Except.toOption]

theorem nodup_wanted (markets : List Market) : (wanted markets).Nodup :=
  (List.mergeSort_perm _ _).nodup_iff.mpr (List.nodup_dedup _)

/-- Every symbol asked for stands in one chunk. -/
theorem exists_chunk {markets : List Market} {m : Market} {symbol : Symbol} (hm : m ∈ markets)
    (hsymbol : yahooSymbolNow m = .ok symbol) : ∃ chunk ∈ chunks markets, symbol ∈ chunk := by
  have hmem := mem_wanted.mpr ⟨m, hm, hsymbol⟩
  rw [← flatten_chunks] at hmem
  exact List.mem_flatten.mp hmem

theorem chunk_unique {markets : List Market} {symbol : Symbol} {chunk chunk' : List Symbol}
    (hc : chunk ∈ chunks markets) (hc' : chunk' ∈ chunks markets) (hs : symbol ∈ chunk)
    (hs' : symbol ∈ chunk') : chunk = chunk' := by
  have hnodup := nodup_wanted markets
  rw [← flatten_chunks, List.nodup_flatten] at hnodup
  by_contra hne
  have hsymm : Std.Symm (List.Disjoint (α := Symbol)) := ⟨fun _ _ h => h.symm⟩
  exact hnodup.2.forall hc hc' hne hs hs'

end Chunks

/-! ### The answers put together -/

section Answers
variable {request : List Symbol → Except (List Char) (List Quote)} {markets : List Market}

/-- The quotes and the failures a chunk adds. -/
def quotesOf (request : List Symbol → Except (List Char) (List Quote)) (chunk : List Symbol) :
    List Quote :=
  (request chunk).toOption.getD []

def failuresOf (request : List Symbol → Except (List Char) (List Quote)) (chunk : List Symbol) :
    List (Symbol × QuoteError) :=
  match request chunk with
  | .ok _ => []
  | .error reason => chunk.map fun symbol => (symbol, .requestFailed chunk reason)

theorem askChunk_eq (answers : Answers) (chunk : List Symbol) :
    askChunk request answers chunk =
      ⟨answers.quotes ++ quotesOf request chunk, answers.failures ++ failuresOf request chunk⟩ := by
  unfold askChunk quotesOf failuresOf
  cases request chunk <;> simp [Except.toOption]

theorem foldl_askChunk (answers : Answers) (cs : List (List Symbol)) :
    cs.foldl (askChunk request) answers =
      ⟨answers.quotes ++ cs.flatMap (quotesOf request),
        answers.failures ++ cs.flatMap (failuresOf request)⟩ := by
  induction cs generalizing answers with
  | nil => simp
  | cons c cs ih => simp [ih, askChunk_eq]

theorem askAll_eq (markets : List Market) :
    askAll request markets =
      ⟨(chunks markets).flatMap (quotesOf request), (chunks markets).flatMap (failuresOf request)⟩ := by
  rw [askAll, foldl_askChunk, List.nil_append, List.nil_append]

theorem mem_failuresOf {symbol : Symbol} {failure : QuoteError} {chunk : List Symbol} :
    (symbol, failure) ∈ failuresOf request chunk ↔
      ∃ reason, request chunk = .error reason ∧ symbol ∈ chunk ∧ failure = .requestFailed chunk reason := by
  unfold failuresOf
  cases request chunk with
  | ok answered => simp
  | error reason => simp [eq_comm]

theorem mem_quotesOf {quote : Quote} {chunk : List Symbol} :
    quote ∈ quotesOf request chunk ↔ ∃ answered, request chunk = .ok answered ∧ quote ∈ answered := by
  unfold quotesOf
  cases request chunk <;> simp [Except.toOption]

/-- A symbol whose chunk failed has that failure, and no other symbol has one. -/
theorem lookup_failures {symbol : Symbol} {chunk : List Symbol} (hchunk : chunk ∈ chunks markets)
    (hsymbol : symbol ∈ chunk) :
    (askAll request markets).failures.lookup symbol =
      match request chunk with
      | .ok _ => none
      | .error reason => some (.requestFailed chunk reason) := by
  have honly : ∀ failure, (symbol, failure) ∈ (askAll request markets).failures →
      ∃ reason, request chunk = .error reason ∧ failure = .requestFailed chunk reason := by
    intro failure hmem
    rw [askAll_eq] at hmem
    obtain ⟨chunk', hchunk', hin⟩ := List.mem_flatMap.mp hmem
    obtain ⟨reason, hreason, hsymbol', rfl⟩ := mem_failuresOf.mp hin
    obtain rfl := chunk_unique hchunk hchunk' hsymbol hsymbol'
    exact ⟨reason, hreason, rfl⟩
  cases hlookup : (askAll request markets).failures.lookup symbol with
  | none =>
    cases hrequest : request chunk with
    | ok answered => rfl
    | error reason =>
      have hmem : (symbol, QuoteError.requestFailed chunk reason) ∈
          (askAll request markets).failures := by
        rw [askAll_eq]
        exact List.mem_flatMap.mpr ⟨chunk, hchunk, mem_failuresOf.mpr ⟨reason, hrequest, hsymbol, rfl⟩⟩
      have hnone := List.lookup_eq_none_iff.mp hlookup _ hmem
      simp at hnone
  | some failure =>
    obtain ⟨before, after, hsplit, -⟩ := List.lookup_eq_some_iff.mp hlookup
    have hmem : (symbol, failure) ∈ (askAll request markets).failures := by
      rw [hsplit]
      simp
    obtain ⟨reason, hrequest, rfl⟩ := honly failure hmem
    rw [hrequest]

theorem quoteOf_unmapped {answers : Answers} {m : Market} {e : QuoteError}
    (h : yahooSymbolNow m = .error e) : answers.quoteOf m = .error e := by
  unfold Answers.quoteOf
  rw [h]
  rfl

theorem quoteOf_failed {m : Market} {symbol : Symbol} {chunk : List Symbol} {reason : List Char}
    (hm : yahooSymbolNow m = .ok symbol) (hchunk : chunk ∈ chunks markets) (hsymbol : symbol ∈ chunk)
    (hrequest : request chunk = .error reason) :
    (askAll request markets).quoteOf m = .error (.requestFailed chunk reason) := by
  unfold Answers.quoteOf
  rw [hm]
  change (refuseSome ((askAll request markets).failures.lookup symbol) >>= fun _ => _) = _
  rw [lookup_failures hchunk hsymbol, hrequest]
  rfl

theorem quoteOf_answered {m : Market} {symbol : Symbol} {chunk : List Symbol} {answered : List Quote}
    (hm : yahooSymbolNow m = .ok symbol) (hchunk : chunk ∈ chunks markets) (hsymbol : symbol ∈ chunk)
    (hrequest : request chunk = .ok answered) :
    (askAll request markets).quoteOf m =
      yahooQuoteNamed ((chunks markets).flatMap (quotesOf request)) symbol := by
  unfold Answers.quoteOf
  rw [hm]
  change (refuseSome ((askAll request markets).failures.lookup symbol) >>= fun _ => _) = _
  rw [lookup_failures hchunk hsymbol, hrequest, askAll_eq]
  rfl

end Answers

/-! ### A market's own quote -/

/-- A quote of an answer to one of the requests, under the symbol. -/
def Provided (request : List Symbol → Except (List Char) (List Quote)) (markets : List Market)
    (symbol : Symbol) (quote : LatestQuote) : Prop :=
  ∃ chunk ∈ chunks markets, ∃ answered, request chunk = .ok answered ∧
    ∃ q ∈ answered, named symbol q = true ∧ readQuote symbol q = .ok quote

/-- A provider that has one quote for a symbol, or none: what it answers is that
quote, and a request that is answered holds it for every symbol asked for. -/
structure Consistent (request : List Symbol → Except (List Char) (List Quote))
    (serves : Symbol → Option Quote) : Prop where
  one : ∀ {chunk answered}, request chunk = .ok answered → ∀ quote ∈ answered,
    ∀ symbol, named symbol quote = true → serves symbol = some quote
  held : ∀ {chunk answered}, request chunk = .ok answered → ∀ symbol ∈ chunk,
    ∀ quote, serves symbol = some quote → quote ∈ answered ∧ named symbol quote = true

/-- What a market is answered by itself. -/
def ownQuote (serves : Symbol → Option Quote) (m : Market) : Answer := do
  let symbol ← yahooSymbolNow m
  let quote ← orRefuse (serves symbol) (.noQuote symbol)
  readQuote symbol quote

section Own
variable {request : List Symbol → Except (List Char) (List Quote)} {markets : List Market} {m : Market}

theorem yahooQuoteNamed_ok {quotes : List Quote} {symbol : Symbol} {quote : LatestQuote}
    (h : yahooQuoteNamed quotes symbol = .ok quote) :
    ∃ q ∈ quotes, named symbol q = true ∧ readQuote symbol q = .ok quote := by
  obtain ⟨q, hq, hread⟩ := bind_ok h
  rw [orRefuse_ok] at hq
  exact ⟨q, List.mem_of_find?_eq_some hq, List.find?_some hq, hread⟩

/-- A market that is asked for is answered its own failure, its chunk's, or a
quote found in the answers. -/
theorem quoteOf_cases (hm : m ∈ markets) :
    (∃ e, yahooSymbolNow m = .error e ∧ (askAll request markets).quoteOf m = .error e) ∨
      ∃ symbol, yahooSymbolNow m = .ok symbol ∧ ∃ chunk ∈ chunks markets, symbol ∈ chunk ∧
        ((∃ reason, request chunk = .error reason ∧
            (askAll request markets).quoteOf m = .error (.requestFailed chunk reason)) ∨
          ∃ answered, request chunk = .ok answered ∧ (askAll request markets).quoteOf m =
            yahooQuoteNamed ((chunks markets).flatMap (quotesOf request)) symbol) := by
  cases hsymbol : yahooSymbolNow m with
  | error e => exact .inl ⟨e, rfl, quoteOf_unmapped hsymbol⟩
  | ok symbol =>
    obtain ⟨chunk, hchunk, hin⟩ := exists_chunk hm hsymbol
    refine .inr ⟨symbol, rfl, chunk, hchunk, hin, ?_⟩
    cases hrequest : request chunk with
    | error reason => exact .inl ⟨reason, rfl, quoteOf_failed hsymbol hchunk hin hrequest⟩
    | ok answered => exact .inr ⟨answered, rfl, quoteOf_answered hsymbol hchunk hin hrequest⟩

theorem provided_of_quoteOf (hm : m ∈ markets) {quote : LatestQuote}
    (h : (askAll request markets).quoteOf m = .ok quote) :
    ∃ symbol, yahooSymbolNow m = .ok symbol ∧ Provided request markets symbol quote := by
  rcases @quoteOf_cases request markets m hm with ⟨e, -, he⟩ | ⟨symbol, hsymbol, chunk, -, -, hcase⟩
  · rw [he] at h
    cases h
  · rcases hcase with ⟨reason, -, he⟩ | ⟨answered, -, hanswer⟩
    · rw [he] at h
      cases h
    · rw [hanswer] at h
      obtain ⟨q, hq, hnamed, hread⟩ := yahooQuoteNamed_ok h
      obtain ⟨chunk', hchunk', hin⟩ := List.mem_flatMap.mp hq
      obtain ⟨answered', hrequest', hmem⟩ := mem_quotesOf.mp hin
      exact ⟨symbol, hsymbol, chunk', hchunk', answered', hrequest', q, hmem, hnamed, hread⟩

/-- What is found under a symbol that an answered request asked for is its one quote. -/
theorem find_of_consistent {serves : Symbol → Option Quote} (h : Consistent request serves)
    {symbol : Symbol} {chunk : List Symbol} {answered : List Quote} (hchunk : chunk ∈ chunks markets)
    (hsymbol : symbol ∈ chunk) (hrequest : request chunk = .ok answered) :
    ((chunks markets).flatMap (quotesOf request)).find? (named symbol) = serves symbol := by
  have hone : ∀ q ∈ (chunks markets).flatMap (quotesOf request), named symbol q = true →
      serves symbol = some q := by
    intro q hq hnamed
    obtain ⟨chunk', -, hin⟩ := List.mem_flatMap.mp hq
    obtain ⟨answered', hrequest', hmem⟩ := mem_quotesOf.mp hin
    exact h.one hrequest' q hmem symbol hnamed
  cases hfind : ((chunks markets).flatMap (quotesOf request)).find? (named symbol) with
  | some q => exact (hone q (List.mem_of_find?_eq_some hfind) (List.find?_some hfind)).symm
  | none =>
    cases hserves : serves symbol with
    | none => rfl
    | some q =>
      obtain ⟨hmem, hnamed⟩ := h.held hrequest symbol hsymbol q hserves
      have hin : q ∈ (chunks markets).flatMap (quotesOf request) :=
        List.mem_flatMap.mpr ⟨chunk, hchunk, mem_quotesOf.mpr ⟨answered, hrequest, hmem⟩⟩
      exact absurd hnamed (List.find?_eq_none.mp hfind q hin)

/-- A market is answered as it is by itself, or its chunk failed. -/
theorem quoteOf_own {serves : Symbol → Option Quote} (h : Consistent request serves)
    (hm : m ∈ markets) :
    (askAll request markets).quoteOf m = ownQuote serves m ∨
      ∃ symbol, yahooSymbolNow m = .ok symbol ∧ ∃ chunk ∈ chunks markets, symbol ∈ chunk ∧
        ∃ reason, request chunk = .error reason ∧
          (askAll request markets).quoteOf m = .error (.requestFailed chunk reason) := by
  unfold ownQuote
  rcases @quoteOf_cases request markets m hm with ⟨e, hsymbol, he⟩ | ⟨symbol, hsymbol, chunk, hchunk, hin, hcase⟩
  · refine .inl ?_
    rw [hsymbol, he]
    rfl
  · rcases hcase with hfailed | ⟨answered, hrequest, hanswer⟩
    · exact .inr ⟨symbol, hsymbol, chunk, hchunk, hin, hfailed⟩
    · refine .inl ?_
      rw [hanswer, hsymbol, yahooQuoteNamed, find_of_consistent h hchunk hin hrequest]
      rfl

end Own

/-! ### Hits and misses -/

section Cached
variable {request : List Symbol → Except (List Char) (List Quote)} {cache : Cache} {ttl : ℕ}
  {asked : List (Market × ℕ)}

/-- The markets that are put to the provider. -/
def misses (cache : Cache) (ttl : ℕ) (asked : List (Market × ℕ)) : List Market :=
  (asked.filter fun a => (cache.hit ttl a).isNone).map Prod.fst

theorem resizeWith_eq {α : Type} {length : ℕ} {filler : α} {l : List α} (h : l.length = length) :
    resizeWith length filler l = l := by
  unfold resizeWith
  rw [← h, List.take_length, Nat.sub_self, List.replicate_zero, List.append_nil]

theorem zip_misses (asked : List (Market × ℕ)) (f : Market × ℕ → Option LatestQuote) :
    ((asked.zip (asked.map f)).filter fun x => x.2.isNone).map (fun x => x.1.1) =
      (asked.filter fun a => (f a).isNone).map Prod.fst := by
  induction asked with
  | nil => rfl
  | cons a asked ih =>
    simp only [List.map_cons, List.zip_cons_cons, List.filter_cons]
    cases f a with
    | none => simpa using ih
    | some q => simpa using ih

/-- The places between the hits are filled by the misses' own answers. -/
theorem fill_map (asked : List (Market × ℕ)) (f : Market × ℕ → Option LatestQuote)
    (g : Market → Answer) :
    fill (asked.map f) (((asked.filter fun a => (f a).isNone).map Prod.fst).map g) =
      asked.map fun a => (f a).elim (g a.1) .ok := by
  induction asked with
  | nil => rfl
  | cons a asked ih =>
    simp only [List.map_cons, List.filter_cons]
    cases f a with
    | none => simpa [fill] using ih
    | some q => simpa [fill] using ih

theorem all_hits (asked : List (Market × ℕ)) (f : Market × ℕ → Option LatestQuote) (g : Market → Answer)
    (h : (asked.filter fun a => (f a).isNone) = []) :
    ((asked.map f).filterMap fun found => found).map .ok =
      asked.map fun a => (f a).elim (g a.1) .ok := by
  induction asked with
  | nil => rfl
  | cons a asked ih =>
    rw [List.filter_cons] at h
    cases hf : f a with
    | none => simp [hf] at h
    | some q =>
      rw [hf] at h
      simpa [hf] using ih (by simpa using h)

/-- Each market's answer, in its own place. -/
theorem answers_eq (request : List Symbol → Except (List Char) (List Quote)) (cache : Cache) (ttl : ℕ)
    (asked : List (Market × ℕ)) :
    (latestQuotes (yahooQuotes request) cache ttl asked).answers =
      asked.map fun a => (cache.hit ttl a).elim
        ((askAll request (misses cache ttl asked)).quoteOf a.1) .ok := by
  simp only [latestQuotes, zip_misses]
  split
  · rename_i hempty
    apply all_hits
    rw [List.isEmpty_iff] at hempty
    exact List.map_eq_nil_iff.mp hempty
  · rw [resizeWith_eq (by simp [yahooQuotes])]
    exact fill_map asked (cache.hit ttl) _

theorem filterMap_zip_map {α β γ : Type} (l : List α) (g : α → β) (f : α × β → Option γ) :
    (l.zip (l.map g)).filterMap f = l.filterMap fun a => f (a, g a) := by
  induction l with
  | nil => rfl
  | cons a l ih => simp [List.filterMap_cons, ih]

theorem toRemember_eq (request : List Symbol → Except (List Char) (List Quote)) (cache : Cache)
    (ttl : ℕ) (asked : List (Market × ℕ)) :
    (latestQuotes (yahooQuotes request) cache ttl asked).toRemember =
      (misses cache ttl asked).filterMap fun m =>
        ((askAll request (misses cache ttl asked)).quoteOf m).toOption.map fun quote =>
          (m.listingId, quote) := by
  simp only [latestQuotes, zip_misses]
  split
  · rename_i hempty
    rw [List.isEmpty_iff] at hempty
    have hnil : misses cache ttl asked = [] := hempty
    rw [hnil]
    rfl
  · rw [resizeWith_eq (by simp [yahooQuotes])]
    exact filterMap_zip_map _ _ _

theorem mem_misses {a : Market × ℕ} (ha : a ∈ asked) (h : cache.hit ttl a = none) :
    a.1 ∈ misses cache ttl asked :=
  List.mem_map.mpr ⟨a, List.mem_filter.mpr ⟨ha, by rw [h]; rfl⟩, rfl⟩

/-- What is remembered is what some market of the listing was answered just now. -/
theorem mem_toRemember {listingId : ℕ} {quote : LatestQuote}
    (h : (listingId, quote) ∈ (latestQuotes (yahooQuotes request) cache ttl asked).toRemember) :
    ∃ i : ℕ, ∃ a, asked[i]? = some a ∧ a.1.listingId = listingId ∧ cache.hit ttl a = none ∧
      (latestQuotes (yahooQuotes request) cache ttl asked).answers[i]? = some (.ok quote) := by
  rw [toRemember_eq] at h
  obtain ⟨m, hm, hquote⟩ := List.mem_filterMap.mp h
  obtain ⟨a, ha, rfl⟩ := List.mem_map.mp hm
  obtain ⟨hasked, hnone⟩ := List.mem_filter.mp ha
  obtain ⟨q, hq, heq⟩ := Option.map_eq_some_iff.mp hquote
  obtain ⟨rfl, rfl⟩ := Prod.mk.inj heq
  obtain ⟨i, hi⟩ := List.mem_iff_getElem?.mp hasked
  have hmiss : cache.hit ttl a = none := Option.isNone_iff_eq_none.mp hnone
  refine ⟨i, a, hi, rfl, hmiss, ?_⟩
  rw [answers_eq, List.getElem?_map, hi, Option.map_some, hmiss, Option.elim_none]
  cases hanswer : (askAll request (misses cache ttl asked)).quoteOf a.1 with
  | error e =>
    rw [hanswer] at hq
    cases hq
  | ok q' =>
    rw [hanswer] at hq
    obtain rfl := Option.some.inj hq
    rfl

/-- A listing's entry afterwards is the one before, or a quote that was remembered. -/
theorem entries_remembered (cache : Cache) (stamped : List (ℕ × ℕ × LatestQuote)) (listingId : ℕ) :
    (stamped.foldl (fun c w => c.remember w.1 w.2.1 w.2.2) cache).entries listingId =
        cache.entries listingId ∨
      ∃ now quote, (stamped.foldl (fun c w => c.remember w.1 w.2.1 w.2.2) cache).entries listingId =
        some (now, quote) ∧ (listingId, quote) ∈ stamped.map Prod.snd := by
  induction stamped using List.reverseRecOn with
  | nil => exact .inl rfl
  | append_singleton stamped w ih =>
    rw [List.foldl_append, List.foldl_cons, List.foldl_nil, List.map_append]
    generalize stamped.foldl (fun c w => c.remember w.1 w.2.1 w.2.2) cache = c at ih
    have hkept : c.entries listingId = cache.entries listingId ∨
        ∃ now quote, c.entries listingId = some (now, quote) ∧
          (listingId, quote) ∈ stamped.map Prod.snd ++ [w].map Prod.snd :=
      ih.imp_right fun ⟨now, quote, hentry, hmem⟩ =>
        ⟨now, quote, hentry, List.mem_append_left _ hmem⟩
    unfold Cache.remember
    split
    · exact hkept
    · by_cases hid : listingId = w.2.1
      · subst hid
        exact .inr ⟨w.1, w.2.2, Function.update_self _ _ _, by simp⟩
      · change Function.update c.entries w.2.1 _ listingId = _ ∨ ∃ now quote,
          Function.update c.entries w.2.1 _ listingId = some (now, quote) ∧ _
        rw [Function.update_of_ne hid]
        exact hkept

end Cached

/-- What a market is answered whatever is asked beside it: its remembered quote, or
its own from the provider. -/
def alone (serves : Symbol → Option Quote) (cache : Cache) (ttl : ℕ) (a : Market × ℕ) : Answer :=
  (cache.hit ttl a).elim (ownQuote serves a.1) .ok

/-- Live quotes stay with their listings: one answer a market and in its place; a
success is the listing's remembered quote or one provided under the market's
symbol; only successes are remembered, under their own listing; and from a
consistent provider a market is answered as it is alone, unless its chunk failed. -/
theorem live_quotes_stay_with_listing (request : List Symbol → Except (List Char) (List Quote))
    (cache : Cache) (ttl : ℕ) (asked : List (Market × ℕ)) :
    (latestQuotes (yahooQuotes request) cache ttl asked).answers.length = asked.length ∧
    (∀ (i : ℕ) a quote, asked[i]? = some a →
      (latestQuotes (yahooQuotes request) cache ttl asked).answers[i]? = some (.ok quote) →
        cache.hit ttl a = some quote ∨
          ∃ symbol, yahooSymbolNow a.1 = .ok symbol ∧
            Provided request (misses cache ttl asked) symbol quote) ∧
    (∀ (before : Cache) (stamped : List (ℕ × ℕ × LatestQuote)),
      stamped.map Prod.snd = (latestQuotes (yahooQuotes request) cache ttl asked).toRemember →
      ∀ listingId, (stamped.foldl (fun c w => c.remember w.1 w.2.1 w.2.2) before).entries listingId =
          before.entries listingId ∨
        ∃ now quote, ∃ i : ℕ, ∃ a,
          (stamped.foldl (fun c w => c.remember w.1 w.2.1 w.2.2) before).entries listingId =
            some (now, quote) ∧ asked[i]? = some a ∧ a.1.listingId = listingId ∧
          (latestQuotes (yahooQuotes request) cache ttl asked).answers[i]? = some (.ok quote)) ∧
    ∀ serves, Consistent request serves → ∀ (i : ℕ) a answer, asked[i]? = some a →
      (latestQuotes (yahooQuotes request) cache ttl asked).answers[i]? = some answer →
        answer = alone serves cache ttl a ∨
          ∃ symbol, yahooSymbolNow a.1 = .ok symbol ∧ ∃ chunk ∈ chunks (misses cache ttl asked),
            symbol ∈ chunk ∧ ∃ reason, request chunk = .error reason ∧
              answer = .error (.requestFailed chunk reason) := by
  have hplace : ∀ (i : ℕ) a answer, asked[i]? = some a →
      (latestQuotes (yahooQuotes request) cache ttl asked).answers[i]? = some answer →
        answer = (cache.hit ttl a).elim ((askAll request (misses cache ttl asked)).quoteOf a.1) .ok := by
    intro i a answer hi hanswer
    rw [answers_eq, List.getElem?_map, hi] at hanswer
    exact (Option.some.inj hanswer).symm
  refine ⟨by rw [answers_eq, List.length_map], ?_, ?_, ?_⟩
  · intro i a quote hi hanswer
    have heq := hplace i a _ hi hanswer
    cases hhit : cache.hit ttl a with
    | some q =>
      rw [hhit] at heq
      cases heq
      exact .inl rfl
    | none =>
      rw [hhit] at heq
      exact .inr (provided_of_quoteOf (mem_misses (List.mem_of_getElem? hi) hhit) heq.symm)
  · intro before stamped hstamped listingId
    refine (entries_remembered before stamped listingId).imp_right ?_
    rintro ⟨now, quote, hentry, hmem⟩
    rw [hstamped] at hmem
    obtain ⟨i, a, hi, hlisting, -, hanswer⟩ := mem_toRemember hmem
    exact ⟨now, quote, i, a, hentry, hi, hlisting, hanswer⟩
  · intro serves hserves i a answer hi hanswer
    have heq := hplace i a _ hi hanswer
    unfold alone
    cases hhit : cache.hit ttl a with
    | some q =>
      rw [hhit] at heq
      exact .inl heq
    | none =>
      rw [hhit] at heq
      rw [heq]
      exact quoteOf_own hserves (mem_misses (List.mem_of_getElem? hi) hhit)

/-! ### The valuation -/

/-- The listings on record, each with its market. -/
structure Listings where
  market : ℕ → Option Market
  own : ∀ {i m}, market i = some m → m.listingId = i

structure LiveValuation where
  audPrice : ℚ
  asOf : ℤ
  fxProvisional : Bool
  deriving DecidableEq

inductive Unvalued
  | listingGone (listingId : ℕ)
  | unquoted (reason : QuoteError)
  | currencyMismatch (quoted listing : List Char)
  | unrated (reason : List Char)
  deriving DecidableEq

abbrev Valued := Except Unvalued LiveValuation

def applyRate (keep : ℚ → ℚ) (amount : ℚ) (rate : Decimal) : ℚ :=
  if rate.value = 1 then amount else keep (amount / rate.value)

/-- Entries put in a map, a later one in the place of an earlier. -/
def insertAll (out : ℕ → Option Valued) (entries : List (ℕ × Valued)) : ℕ → Option Valued :=
  entries.foldl (fun out e => Function.update out e.1 (some e.2)) out

/-- The listings asked for that are still on record. -/
def Listings.quotedIds (listings : Listings) (ids : List ℕ) : List ℕ :=
  ids.filter fun id => (listings.market id).isSome

def Listings.gone (listings : Listings) (ids : List ℕ) : List (ℕ × Valued) :=
  (ids.filter fun id => (listings.market id).isNone).map fun id => (id, .error (.listingGone id))

section Live
variable (keep : ℚ → ℚ) (valuationRate : List Char → ℤ → Except (List Char) (Decimal × Bool))

/-- A quote in Australian dollars, at the valuation rate of its own month. -/
def valueQuote (m : Market) : Answer → Valued
  | .error e => .error (.unquoted e)
  | .ok quote =>
    if quote.currency ≠ m.currency then .error (.currencyMismatch quote.currency m.currency)
    else match valuationRate quote.currency quote.asOf with
      | .ok (rate, provisional) => .ok ⟨applyRate keep quote.price rate, quote.asOf, provisional⟩
      | .error reason => .error (.unrated reason)

/-- Each listing beside what the quote in its place values it at; a place with no
answer has a failure. -/
def zipQuotes (ids : List ℕ) (markets : List Market) (quotes : List Answer) : List (ℕ × Valued) :=
  ((ids.zip markets).zip (resizeWith markets.length (.error .noResult) quotes)).map fun x =>
    (x.1.1, valueQuote keep valuationRate x.1.2 x.2)

/-- Every market is looked up before any is quoted, so the provider is asked once. -/
def fetchLiveAudPrices (listings : Listings) (latest : List Market → List Answer) (ids : List ℕ) :
    ℕ → Option Valued :=
  let markets := ids.filterMap listings.market
  let out := insertAll (fun _ => none) (listings.gone ids)
  if markets.isEmpty then out
  else insertAll out (zipQuotes keep valuationRate (listings.quotedIds ids) markets (latest markets))

variable {keep valuationRate} {listings : Listings}

/-- Under a key stands an entry of that key, or what stood there before. -/
theorem insertAll_cases (out : ℕ → Option Valued) (entries : List (ℕ × Valued)) (id : ℕ) :
    (∃ value, (id, value) ∈ entries ∧ insertAll out entries id = some value) ∨
      (id ∉ entries.map Prod.fst ∧ insertAll out entries id = out id) := by
  induction entries using List.reverseRecOn with
  | nil => exact .inr ⟨List.not_mem_nil, rfl⟩
  | append_singleton entries e ih =>
    have hlast : insertAll out (entries ++ [e]) =
        Function.update (insertAll out entries) e.1 (some e.2) := by
      rw [insertAll, List.foldl_append]
      rfl
    rw [hlast]
    by_cases hid : id = e.1
    · subst hid
      exact .inl ⟨e.2, by simp, Function.update_self _ _ _⟩
    · rw [Function.update_of_ne hid]
      refine ih.imp (fun ⟨value, hmem, hvalue⟩ => ⟨value, List.mem_append_left _ hmem, hvalue⟩) ?_
      rintro ⟨hnone, hkept⟩
      exact ⟨by simpa [hid] using hnone, hkept⟩

theorem market_of_place {ids : List ℕ} {i id : ℕ}
    (h : (listings.quotedIds ids)[i]? = some id) :
    (ids.filterMap listings.market)[i]? = listings.market id := by
  have hmap : (listings.quotedIds ids).map listings.market =
      (ids.filterMap listings.market).map some := by
    clear h
    unfold Listings.quotedIds
    induction ids with
    | nil => rfl
    | cons a ids ih =>
      cases hm : listings.market a with
      | none => simpa [hm] using ih
      | some m => simp [hm, ih]
  have hplace := congrArg (fun l => l[i]?) hmap
  simp only [List.getElem?_map, h, Option.map_some] at hplace
  cases hm : (ids.filterMap listings.market)[i]? with
  | none =>
    rw [hm] at hplace
    cases hplace
  | some m =>
    rw [hm] at hplace
    exact (Option.some.inj hplace).symm

theorem getElem?_resizeWith {α : Type} {length i : ℕ} (filler : α) (l : List α) (h : i < length) :
    (resizeWith length filler l)[i]? = some (l[i]?.getD filler) := by
  unfold resizeWith
  rcases lt_or_ge i l.length with hi | hi
  · rw [List.getElem?_append_left (by rw [List.length_take]; omega), List.getElem?_take_of_lt h,
      List.getElem?_eq_getElem hi]
    rfl
  · have htake : (l.take length).length = l.length := by
      rw [List.length_take]
      omega
    rw [List.getElem?_append_right (by omega), htake, List.getElem?_eq_none hi,
      List.getElem?_replicate, if_pos (by omega)]
    rfl

theorem length_quotedIds (ids : List ℕ) :
    (listings.quotedIds ids).length = (ids.filterMap listings.market).length := by
  unfold Listings.quotedIds
  induction ids with
  | nil => rfl
  | cons a ids ih =>
    cases hm : listings.market a with
    | none => simpa [hm] using ih
    | some m => simp [hm, ih]

/-- The listings that are gone are said to be, and nothing else is. -/
theorem insertAll_gone (ids : List ℕ) (id : ℕ) :
    insertAll (fun _ => none) (listings.gone ids) id =
      if id ∈ ids ∧ listings.market id = none then some (.error (.listingGone id)) else none := by
  have hkeys : (listings.gone ids).map Prod.fst = ids.filter fun id => (listings.market id).isNone := by
    rw [Listings.gone, List.map_map]
    exact List.map_id _
  rcases insertAll_cases (fun _ => none) (listings.gone ids) id with ⟨value, hvalue, hentry⟩ | ⟨hnot, hkept⟩
  · obtain ⟨id', hid', heq⟩ := List.mem_map.mp hvalue
    obtain ⟨rfl, rfl⟩ := Prod.mk.inj heq
    obtain ⟨hin, hnone⟩ := List.mem_filter.mp hid'
    rw [hentry, if_pos ⟨hin, Option.isNone_iff_eq_none.mp hnone⟩]
  · rw [hkeys, List.mem_filter, Option.isNone_iff_eq_none] at hnot
    rw [hkept, if_neg hnot]

theorem zipQuotes_ids {ids : List ℕ} {markets : List Market} (h : ids.length = markets.length)
    (answers : List Answer) :
    (zipQuotes keep valuationRate ids markets answers).map Prod.fst = ids := by
  have hlength : (resizeWith markets.length (.error .noResult) answers).length = markets.length := by
    unfold resizeWith
    rw [List.length_append, List.length_take, List.length_replicate]
    omega
  rw [zipQuotes, List.map_map]
  have hfst : (ids.zip markets).map Prod.fst = ids := List.map_fst_zip h.le
  have hzip : ((ids.zip markets).zip (resizeWith markets.length (.error .noResult) answers)).map
      Prod.fst = ids.zip markets := by
    refine List.map_fst_zip ?_
    rw [List.length_zip, hlength, h, min_self]
  conv_rhs => rw [← hfst, ← hzip, List.map_map]
  rfl

/-- Each listing asked for is valued at the answer in the place of its own market,
or said to be gone, and nothing else is valued. -/
theorem fetchLiveAudPrices_own (latest : List Market → List Answer) (ids : List ℕ) (id : ℕ) :
    (id ∉ ids → fetchLiveAudPrices keep valuationRate listings latest ids id = none) ∧
    (id ∈ ids → listings.market id = none →
      fetchLiveAudPrices keep valuationRate listings latest ids id =
        some (.error (.listingGone id))) ∧
    ∀ m, id ∈ ids → listings.market id = some m → m.listingId = id ∧
      ∃ i : ℕ, (ids.filterMap listings.market)[i]? = some m ∧
        fetchLiveAudPrices keep valuationRate listings latest ids id =
          some (valueQuote keep valuationRate m
            (((latest (ids.filterMap listings.market))[i]?).getD (.error .noResult))) := by
  have hmem : id ∈ listings.quotedIds ids ↔ id ∈ ids ∧ ∃ m, listings.market id = some m := by
    rw [Listings.quotedIds, List.mem_filter, Option.isSome_iff_exists]
  have hkeys := @zipQuotes_ids keep valuationRate _ _ (@length_quotedIds listings ids)
    (latest (ids.filterMap listings.market))
  have hout := @insertAll_gone listings ids id
  have hfetch : fetchLiveAudPrices keep valuationRate listings latest ids =
      insertAll (insertAll (fun _ => none) (listings.gone ids))
        (zipQuotes keep valuationRate (listings.quotedIds ids) (ids.filterMap listings.market)
          (latest (ids.filterMap listings.market))) := by
    unfold fetchLiveAudPrices
    simp only
    split
    · rename_i hempty
      rw [List.isEmpty_iff.mp hempty, zipQuotes, List.zip_nil_right, List.zip_nil_left]
      rfl
    · rfl
  have hall := insertAll_cases (insertAll (fun _ => none) (listings.gone ids))
    (zipQuotes keep valuationRate (listings.quotedIds ids) (ids.filterMap listings.market)
      (latest (ids.filterMap listings.market))) id
  rw [hkeys, hmem, ← hfetch] at hall
  refine ⟨fun hid => ?_, fun hid hgone => ?_, fun m hid hm => ⟨listings.own hm, ?_⟩⟩
  · rcases hall with ⟨value, hvalue, -⟩ | ⟨-, hkept⟩
    · have hin := hmem.mp (hkeys ▸ List.mem_map_of_mem (f := Prod.fst) hvalue)
      exact absurd hin.1 hid
    · rw [hkept, hout, if_neg fun h => hid h.1]
  · rcases hall with ⟨value, hvalue, -⟩ | ⟨-, hkept⟩
    · obtain ⟨-, m, hm⟩ := hmem.mp (hkeys ▸ List.mem_map_of_mem (f := Prod.fst) hvalue)
      rw [hgone] at hm
      cases hm
    · rw [hkept, hout, if_pos ⟨hid, hgone⟩]
  · rcases hall with ⟨value, hvalue, hentry⟩ | ⟨hnot, -⟩
    · obtain ⟨x, hx, heq⟩ := List.mem_map.mp hvalue
      obtain ⟨i, hi⟩ := List.mem_iff_getElem?.mp hx
      obtain ⟨hleft, hquote⟩ := List.getElem?_zip_eq_some.mp hi
      obtain ⟨hqid, hmarket⟩ := List.getElem?_zip_eq_some.mp hleft
      obtain ⟨hkey, hval⟩ := Prod.mk.inj heq
      rw [hkey] at hqid
      have hown := market_of_place hqid
      rw [hm, hmarket] at hown
      have hlt := (List.getElem?_eq_some_iff.mp hmarket).1
      rw [getElem?_resizeWith _ _ hlt] at hquote
      refine ⟨i, hmarket.trans hown, ?_⟩
      rw [hentry, ← hval, Option.some.inj hown, Option.some.inj hquote]
    · exact absurd ⟨hid, m, hm⟩ hnot

end Live

/-! ### One listing asked for twice, beside an unmapped one -/

def bhp : Market := ⟨1, ['A', 'U', 'D'], none, none, ['B', 'H', 'P'], some xasx⟩

def tokyo : Market := ⟨2, ['J', 'P', 'Y'], none, none, ['7', '2', '0', '3'], some ['X', 'T', 'K', 'S']⟩

def bhpQuote : Quote :=
  ⟨['B', 'H', 'P', '.', 'A', 'X'], some (Decimal.new 4512 2), some 1700000000, ['A', 'U', 'D']⟩

/-- A provider that quotes one symbol, and answers it to whoever asks for it. -/
def bhpOnly (chunk : List Symbol) : Except (List Char) (List Quote) :=
  .ok (if chunk.any fun symbol => named symbol bhpQuote then [bhpQuote] else [])

def bhpServes (symbol : Symbol) : Option Quote := if named symbol bhpQuote then some bhpQuote else none

theorem bhpOnly_consistent : Consistent bhpOnly bhpServes where
  one := by
    intro chunk answered hanswered quote hquote symbol hnamed
    cases hanswered
    split at hquote
    · rw [List.mem_singleton.mp hquote] at hnamed ⊢
      exact if_pos hnamed
    · cases hquote
  held := by
    intro chunk answered hanswered symbol hsymbol quote hserves
    cases hanswered
    unfold bhpServes at hserves
    split at hserves
    · rename_i hnamed
      obtain rfl := Option.some.inj hserves
      rw [if_pos (List.any_eq_true.mpr ⟨symbol, hsymbol, hnamed⟩)]
      exact ⟨List.mem_cons_self, hnamed⟩
    · cases hserves

def nothingRemembered : Cache := ⟨fun _ => none, false⟩

theorem bhp_answered_alone :
    Except.ok ⟨4512 / 100, ['A', 'U', 'D'], 1700000000⟩ =
        alone bhpServes nothingRemembered 60 (bhp, 7) ∨
      ∃ symbol, yahooSymbolNow bhp = .ok symbol ∧
        ∃ chunk ∈ chunks (misses nothingRemembered 60 [(tokyo, 5), (bhp, 6), (bhp, 7)]),
          symbol ∈ chunk ∧ ∃ reason, bhpOnly chunk = .error reason ∧
            Except.ok ⟨4512 / 100, ['A', 'U', 'D'], 1700000000⟩ =
              (.error (.requestFailed chunk reason) : Answer) :=
  (live_quotes_stay_with_listing bhpOnly nothingRemembered 60 [(tokyo, 5), (bhp, 6), (bhp, 7)]).2.2.2
    bhpServes bhpOnly_consistent 2 (bhp, 7) _ rfl (by decide +kernel)

end ShareTracker.LiveQuotes
