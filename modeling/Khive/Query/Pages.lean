import Khive.Query.Compile

/-!
# Pages of a query

A `LIMIT` in the query text bounds the rows of all pages together, and the server's page size bounds
each. While more of the limit is left than fits on a page, the statement asks for one row more than
the page: if it comes it is cut off again, and its presence is the continuation. Following the
continuations with the same text therefore walks through the rows of the limit page by page.
-/

namespace Khive

namespace Query

variable {Row : Type}

inductive QueryLanguage where
  | gql
  | sparql
  deriving DecidableEq

inductive RuntimeError where
  | query (e : QueryError)
  | invalidInput (message : String)
  | internal (message : String)
  deriving DecidableEq

structure QueryResult (Row : Type) where
  rows : List Row
  warnings : List String
  offset : UInt64
  pageSize : UInt64
  hasMore : Bool
  nextOffset : Option UInt64
  truncated : Bool
  deriving DecidableEq

/-! ## One page -/

/-- The rows that a compiled query returns, of the rows it matches in their order. The offset and
the limit are bound after the parameters of everything else. -/
def execute (q : GqlQuery) (opts : CompileOptions) (params : List Sql.Value)
    (matching : List Row) : Except QueryError (List Row × Option TruncationCheck) := do
  let ((offset, limit, check), params) ← (bindPage q opts).run params
  pure (Sql.page (Sql.bound params limit.index) (Sql.bound params offset.index) matching, check)

/-- A row beyond the page is cut off, and shows that there are more. -/
def truncate (rows : List Row) : Option TruncationCheck → List Row × Bool
  | none => (rows, false)
  | some check =>
    if rows.length > check.maxLimit.toNat then (rows.take check.maxLimit.toNat, true)
    else (rows, false)

/-- The continuation offset of a page that was truncated. -/
def continuation (offset : UInt64) (returned : ℕ) : Except RuntimeError UInt64 :=
  if 2 ^ 64 ≤ offset.toNat + returned then
    .error (.invalidInput "GQL next_offset exceeds usize::MAX")
  else if returned = 0 then
    .error (.invalidInput "query page did not advance; page size must be at least 1")
  else if 2 ^ 63 ≤ offset.toNat + returned then
    .error (.invalidInput "GQL next_offset exceeds i64::MAX")
  else .ok (UInt64.ofNat (offset.toNat + returned))

/-- Why the page size was the bound. -/
def boundText : Option UInt64 → String
  | some requested => "requested query LIMIT " ++ toString requested.toNat ++
      " exceeds the effective page size"
  | none => "the query has no explicit LIMIT"

def cappedText (check : TruncationCheck) : String :=
  "result page capped at " ++ toString check.maxLimit.toNat ++ " rows because " ++
    boundText check.requestedLimit ++ "; more matches exist. "

/-- The warning of a truncated page. -/
def truncationWarning (language : QueryLanguage) (check : TruncationCheck)
    (nextOffset : Option UInt64) : Except RuntimeError String :=
  match language, nextOffset with
  | .gql, some next => .ok (cappedText check ++ "Continue the same GQL query with `SKIP " ++
      toString next.toNat ++ "` (the machine-readable `next_offset`) and keep the same page size.")
  | .gql, none =>
    .error (.internal "truncated GQL result is missing its continuation offset")
  | .sparql, _ =>
    .ok (cappedText check ++ "SPARQL OFFSET paging is not part of the supported dialect.")

/-- A GQL page that was truncated names its continuation. -/
def nextOffsetOf (language : QueryLanguage) (offset : UInt64) (returned : ℕ) (truncated : Bool) :
    Except RuntimeError (Option UInt64) :=
  if truncated = true ∧ language = .gql then (continuation offset returned).map some
  else .ok none

/-- A page that was truncated comes with one warning more. -/
def warningsOf (language : QueryLanguage) (warnings : List String) (truncated : Bool)
    (check : Option TruncationCheck) (nextOffset : Option UInt64) :
    Except RuntimeError (List String) :=
  match truncated, check with
  | false, _ => .ok warnings
  | true, none => .error (.internal "truncated query result is missing sentinel metadata")
  | true, some check =>
    (truncationWarning language check nextOffset).map fun warning ↦ warnings ++ [warning]

/-- `query_with_metadata` of a parsed query: what else its parameters are, what compiling it warned
about, and the rows it matches are given. -/
def queryWithMetadata (language : QueryLanguage) (ast : GqlQuery) (opts : CompileOptions)
    (params : List Sql.Value) (warnings : List String) (matching : List Row) :
    Except RuntimeError (QueryResult Row) :=
  if opts.maxLimit = 0 then .error (.invalidInput "query page size must be at least 1")
  else do
    let pageSize := min (ast.limit.getD opts.maxLimit) opts.maxLimit
    let (fetched, check) ← (execute ast opts params matching).mapError RuntimeError.query
    let (rows, truncated) := truncate fetched check
    let nextOffset ← nextOffsetOf language ast.offset rows.length truncated
    let warnings ← warningsOf language warnings truncated check nextOffset
    pure ⟨rows, warnings, ast.offset, pageSize, truncated, nextOffset, truncated⟩

section Page

variable {q : GqlQuery} {opts : CompileOptions} {params : List Sql.Value} {matching : List Row}

/-- The number of rows that the limit lets through. -/
def stop (limit : Option UInt64) (matching : List Row) : ℕ :=
  match limit with
  | none => matching.length
  | some limit => min limit.toNat matching.length

theorem stop_le (limit : Option UInt64) (matching : List Row) :
    stop limit matching ≤ matching.length := by
  rcases limit with - | limit
  · exact le_rfl
  · exact min_le_right _ _

theorem toNatClampNeg_toInt64 {n : UInt64} (h : n.toNat < 2 ^ 63) :
    n.toInt64.toNatClampNeg = n.toNat ∧ ¬n.toInt64 < 0 := by
  obtain ⟨k, hk, rfl⟩ : ∃ k < 2 ^ 63, n = UInt64.ofNat k := ⟨n.toNat, h, by simp⟩
  have hofNat : (UInt64.ofNat k).toInt64 = Int64.ofNat k := rfl
  have hsize : k < UInt64.size := hk.trans (by decide)
  rw [hofNat, Int64.toNatClampNeg_ofNat_of_lt hk, UInt64.toNat_ofNat_of_lt' hsize]
  refine ⟨rfl, fun hneg ↦ ?_⟩
  have hint := Int64.lt_iff_toInt_lt.mp hneg
  rw [Int64.toInt_ofNat_of_lt hk] at hint
  exact absurd hint (by simp)

/-- Executing takes the rows from the offset on, up to the bound. -/
theorem execute_eq (params : List Sql.Value) (matching : List Row)
    (hoffset : q.offset.toNat < 2 ^ 63)
    (hlimit : (effectiveLimit q.limit q.offset opts.maxLimit).1.toNat < 2 ^ 63) :
    execute q opts params matching = .ok
      ((matching.drop q.offset.toNat).take (effectiveLimit q.limit q.offset opts.maxLimit).1.toNat,
        (effectiveLimit q.limit q.offset opts.maxLimit).2) := by
  rcases hbound : effectiveLimit q.limit q.offset opts.maxLimit with ⟨limit, check⟩
  rw [hbound] at hlimit
  change limit.toNat < 2 ^ 63 at hlimit
  obtain ⟨hoffsetNat, hoffsetNeg⟩ := toNatClampNeg_toInt64 hoffset
  obtain ⟨hlimitNat, hlimitNeg⟩ := toNatClampNeg_toInt64 hlimit
  have hbind : (bindPage q opts).run params = .ok ((⟨params.length + 1, .integer q.offset.toInt64⟩,
      ⟨(params ++ [Sql.Value.integer q.offset.toInt64]).length + 1, .integer limit.toInt64⟩, check),
      params ++ [.integer q.offset.toInt64] ++ [.integer limit.toInt64]) := by
    rw [bindPage, boundInteger, if_pos hoffset]
    simp only [hbound, boundInteger, if_pos hlimit]
    rfl
  rw [execute, hbind]
  have hlimitBound : Sql.bound (params ++ [.integer q.offset.toInt64] ++ [.integer limit.toInt64])
      ((params ++ [Sql.Value.integer q.offset.toInt64]).length + 1) = .integer limit.toInt64 := by
    simp [Sql.bound]
  have hoffsetBound : Sql.bound (params ++ [.integer q.offset.toInt64] ++ [.integer limit.toInt64])
      (params.length + 1) = .integer q.offset.toInt64 := by simp [Sql.bound]
  change Except.ok (Sql.page (Sql.bound _ ((params ++ [Sql.Value.integer _]).length + 1))
    (Sql.bound _ (params.length + 1)) matching, check) = _
  rw [hlimitBound, hoffsetBound, Sql.page]
  simp only [if_neg hlimitNeg, hoffsetNat, hlimitNat]

theorem effectiveLimit_of_le {limit offset maxLimit : UInt64}
    (h : limit.toNat - offset.toNat ≤ maxLimit.toNat) :
    ∃ remaining, effectiveLimit (some limit) offset maxLimit = (remaining, none) ∧
      remaining.toNat = limit.toNat - offset.toNat := by
  have hremaining : (if offset ≤ limit then limit - offset else 0).toNat =
      limit.toNat - offset.toNat := by
    split_ifs with hle
    · exact UInt64.toNat_sub_of_le _ _ hle
    · have hlt := UInt64.lt_iff_toNat_lt.mp (UInt64.not_le.mp hle)
      rw [UInt64.toNat_zero]
      omega
  refine ⟨_, ?_, hremaining⟩
  simp only [effectiveLimit]
  rw [if_pos (UInt64.le_iff_toNat_le.mpr (hremaining ▸ h))]

theorem effectiveLimit_of_lt {requested : Option UInt64} {offset maxLimit : UInt64}
    (h : ∀ limit, requested = some limit → maxLimit.toNat < limit.toNat - offset.toNat) :
    effectiveLimit requested offset maxLimit = (oneMore maxLimit, some ⟨maxLimit, requested⟩) := by
  rcases requested with - | limit
  · rfl
  · have hlt := h limit rfl
    have hle : offset ≤ limit := UInt64.le_iff_toNat_le.mpr (by omega)
    simp only [effectiveLimit, if_pos hle]
    rw [if_neg]
    rw [UInt64.le_iff_toNat_le, UInt64.toNat_sub_of_le _ _ hle]
    omega

theorem toNat_oneMore {n : UInt64} (h : n.toNat + 1 < 2 ^ 64) :
    (oneMore n).toNat = n.toNat + 1 := by
  rw [oneMore, if_pos h, UInt64.toNat_add, UInt64.toNat_one, Nat.mod_eq_of_lt h]

/-- The bound of the statement is within `i64`: one row more than the page is, or what the limit
leaves. -/
def BoundFits (q : GqlQuery) (maxLimit : UInt64) : Prop :=
  maxLimit.toNat + 1 < 2 ^ 63 ∨
    ∃ limit, q.limit = some limit ∧ limit.toNat - q.offset.toNat < 2 ^ 63

/-- What is left of the rows after the row beyond the page is cut off. -/
theorem truncate_execute (params : List Sql.Value) (matching : List Row)
    (hoffset : q.offset.toNat < 2 ^ 63) (hfits : BoundFits q opts.maxLimit) :
    ∃ fetched check, execute q opts params matching = .ok (fetched, check) ∧
      truncate fetched check =
        (((matching.take (stop q.limit matching)).drop q.offset.toNat).take opts.maxLimit.toNat,
          decide (q.offset.toNat + opts.maxLimit.toNat < stop q.limit matching)) ∧
      (q.offset.toNat + opts.maxLimit.toNat < stop q.limit matching →
        check = some ⟨opts.maxLimit, q.limit⟩) := by
  by_cases hsingle : ∃ limit, q.limit = some limit ∧
      limit.toNat - q.offset.toNat ≤ opts.maxLimit.toNat
  · obtain ⟨limit, hlimit, hle⟩ := hsingle
    obtain ⟨remaining, hbound, hremaining⟩ := effectiveLimit_of_le hle
    have hlt : remaining.toNat < 2 ^ 63 := by
      rcases hfits with hsmall | ⟨limit', hlimit', hlt⟩
      · omega
      · obtain rfl := Option.some.inj (hlimit.symm.trans hlimit')
        omega
    rw [← hlimit] at hbound
    have hexecute : execute q opts params matching = .ok
        ((matching.drop q.offset.toNat).take (limit.toNat - q.offset.toNat), none) := by
      rw [execute_eq params matching hoffset (by rw [hbound]; exact hlt), hbound, hremaining]
    have hlast : ¬q.offset.toNat + opts.maxLimit.toNat < stop q.limit matching := by
      rw [hlimit, stop]
      omega
    refine ⟨_, _, hexecute, ?_, fun hmore ↦ absurd hmore hlast⟩
    rw [truncate, decide_eq_false hlast, hlimit, stop, List.drop_take, List.take_take]
    refine congrArg (fun rows ↦ (rows, false)) (List.take_eq_take_iff.mpr ?_)
    rw [List.length_drop]
    omega
  · have hall : ∀ limit, q.limit = some limit →
        opts.maxLimit.toNat < limit.toNat - q.offset.toNat :=
      fun limit hlimit ↦ not_le.mp fun hle ↦ hsingle ⟨limit, hlimit, hle⟩
    have hbound := effectiveLimit_of_lt hall
    have hsmall : opts.maxLimit.toNat + 1 < 2 ^ 63 := by
      rcases hfits with hsmall | ⟨limit, hlimit, hlt⟩
      · exact hsmall
      · have hless := hall limit hlimit
        omega
    have hmore : (oneMore opts.maxLimit).toNat = opts.maxLimit.toNat + 1 :=
      toNat_oneMore (by omega)
    have hexecute : execute q opts params matching = .ok
        ((matching.drop q.offset.toNat).take (opts.maxLimit.toNat + 1),
          some ⟨opts.maxLimit, q.limit⟩) := by
      rw [execute_eq params matching hoffset (by rw [hbound, hmore]; exact hsmall), hbound, hmore]
    -- the limit cuts nothing off, or only behind the page
    have hstop : stop q.limit matching = matching.length ∨
        q.offset.toNat + opts.maxLimit.toNat < stop q.limit matching ∧
          stop q.limit matching ≤ matching.length := by
      rcases hlimit : q.limit with - | limit
      · exact Or.inl rfl
      · have hless := hall limit hlimit
        rw [stop]
        omega
    refine ⟨_, _, hexecute, ?_, fun _ ↦ rfl⟩
    rw [truncate, List.length_take, List.length_drop, List.drop_take, List.take_take]
    dsimp only
    split_ifs with hlonger
    · rw [List.take_take, decide_eq_true (by omega)]
      refine congrArg (fun rows ↦ (rows, true)) (List.take_eq_take_iff.mpr ?_)
      rw [List.length_drop]
      omega
    · rw [List.take_take, decide_eq_false (by omega)]
      refine congrArg (fun rows ↦ (rows, false)) (List.take_eq_take_iff.mpr ?_)
      rw [List.length_drop]
      omega

/-- The parts of a page put together. -/
theorem queryWithMetadata_of_execute {language : QueryLanguage} {warnings warnings' : List String}
    {fetched rows : List Row} {check : Option TruncationCheck} {truncated : Bool}
    {nextOffset : Option UInt64} (hpage : opts.maxLimit ≠ 0)
    (hexecute : execute q opts params matching = .ok (fetched, check))
    (htruncate : truncate fetched check = (rows, truncated))
    (hnext : nextOffsetOf language q.offset rows.length truncated = .ok nextOffset)
    (hwarnings : warningsOf language warnings truncated check nextOffset = .ok warnings') :
    queryWithMetadata language q opts params warnings matching =
      .ok ⟨rows, warnings', q.offset, min (q.limit.getD opts.maxLimit) opts.maxLimit, truncated,
        nextOffset, truncated⟩ := by
  rw [queryWithMetadata, if_neg hpage, hexecute]
  simp only [Except.mapError, bind, Except.bind, htruncate, hnext, hwarnings]
  rfl

/-- A page: the next rows of the limit, with a continuation exactly if there are more. -/
theorem queryWithMetadata_gql (params : List Sql.Value) (matching : List Row)
    (warnings : List String) (hpage : opts.maxLimit ≠ 0)
    (hoffset : q.offset.toNat < 2 ^ 63) (hfits : BoundFits q opts.maxLimit)
    (hnext : q.offset.toNat + opts.maxLimit.toNat < stop q.limit matching →
      q.offset.toNat + opts.maxLimit.toNat < 2 ^ 63) :
    ∃ page, queryWithMetadata .gql q opts params warnings matching = .ok page ∧
      page.rows = ((matching.take (stop q.limit matching)).drop q.offset.toNat).take
        opts.maxLimit.toNat ∧
      (page.hasMore = true ↔ q.offset.toNat + opts.maxLimit.toNat < stop q.limit matching) ∧
      page.nextOffset = if q.offset.toNat + opts.maxLimit.toNat < stop q.limit matching then
        some (UInt64.ofNat (q.offset.toNat + opts.maxLimit.toNat)) else none := by
  obtain ⟨fetched, check, hexecute, htruncate, hcheck⟩ :=
    truncate_execute params matching hoffset hfits
  have hle := stop_le q.limit matching
  have hlength : (((matching.take (stop q.limit matching)).drop q.offset.toNat).take
      opts.maxLimit.toNat).length =
      min opts.maxLimit.toNat (stop q.limit matching - q.offset.toNat) := by
    rw [List.length_take, List.length_drop, List.length_take, min_eq_left hle]
  generalize ((matching.take (stop q.limit matching)).drop q.offset.toNat).take
    opts.maxLimit.toNat = rows at htruncate hlength ⊢
  by_cases hmore : q.offset.toNat + opts.maxLimit.toNat < stop q.limit matching
  · rw [if_pos hmore]
    rw [decide_eq_true hmore, hcheck hmore] at htruncate
    rw [hcheck hmore] at hexecute
    have hpos : opts.maxLimit.toNat ≠ 0 := fun h ↦ hpage (UInt64.toNat_inj.mp h)
    have hcontinue : nextOffsetOf .gql q.offset rows.length true =
        .ok (some (UInt64.ofNat (q.offset.toNat + opts.maxLimit.toNat))) := by
      have hnext' := hnext hmore
      rw [hlength, min_eq_left (by omega), nextOffsetOf, if_pos ⟨rfl, rfl⟩, continuation,
        if_neg (by omega), if_neg hpos, if_neg (by omega)]
      rfl
    exact ⟨_, queryWithMetadata_of_execute hpage hexecute htruncate hcontinue rfl, rfl,
      iff_of_true rfl hmore, rfl⟩
  · rw [if_neg hmore]
    rw [decide_eq_false hmore] at htruncate
    exact ⟨_, queryWithMetadata_of_execute hpage hexecute htruncate rfl rfl, rfl,
      iff_of_false Bool.false_ne_true hmore, rfl⟩

end Page

/-! ## All pages -/

section Pages

variable {q : GqlQuery} {opts : CompileOptions} {params : List Sql.Value} {warnings : List String}
  {matching : List Row} {pages : List (QueryResult Row)}

/-- Running the query from an offset and following its continuations gives these pages. -/
inductive PagesFrom (q : GqlQuery) (opts : CompileOptions) (params : List Sql.Value)
    (warnings : List String) (matching : List Row) : UInt64 → List (QueryResult Row) → Prop
  | last {offset : UInt64} {page : QueryResult Row}
      (hpage : queryWithMetadata .gql { q with offset } opts params warnings matching = .ok page)
      (hnext : page.nextOffset = none) :
      PagesFrom q opts params warnings matching offset [page]
  | next {offset next : UInt64} {page : QueryResult Row} {rest : List (QueryResult Row)}
      (hpage : queryWithMetadata .gql { q with offset } opts params warnings matching = .ok page)
      (hnext : page.nextOffset = some next)
      (hrest : PagesFrom q opts params warnings matching next rest) :
      PagesFrom q opts params warnings matching offset (page :: rest)

theorem PagesFrom.unique {offset : UInt64} {others : List (QueryResult Row)}
    (h : PagesFrom q opts params warnings matching offset pages)
    (hothers : PagesFrom q opts params warnings matching offset others) : pages = others := by
  induction h generalizing others with
  | last hpage hnext =>
    cases hothers with
    | last hpage' hnext' => rw [Except.ok.inj (hpage.symm.trans hpage')]
    | next hpage' hnext' _ =>
      obtain rfl := Except.ok.inj (hpage.symm.trans hpage')
      rw [hnext] at hnext'
      cases hnext'
  | next hpage hnext _ ih =>
    cases hothers with
    | last hpage' hnext' =>
      obtain rfl := Except.ok.inj (hpage.symm.trans hpage')
      rw [hnext] at hnext'
      cases hnext'
    | next hpage' hnext' hrest' =>
      obtain rfl := Except.ok.inj (hpage.symm.trans hpage')
      obtain rfl := Option.some.inj (hnext.symm.trans hnext')
      rw [ih hrest']

/-- The pages cut the rows up: none is longer than the page size, and a page says that there are
more exactly when a later one has rows. -/
structure Tiles (rows : List Row) (pageSize : ℕ) (pages : List (QueryResult Row)) : Prop where
  rows_eq : pages.flatMap QueryResult.rows = rows
  length_le : ∀ page ∈ pages, page.rows.length ≤ pageSize
  hasMore_iff : ∀ before page after, pages = before ++ page :: after →
    (page.hasMore = true ↔ ∃ later ∈ after, later.rows ≠ [])

/-- The offsets of the pages after the first are within `i64`. -/
def OffsetsFit (offset pageSize stop : ℕ) : Prop :=
  ∀ k, offset + k * pageSize < stop → offset + k * pageSize < 2 ^ 63

theorem Tiles.singleton {page : QueryResult Row} {pageSize : ℕ}
    (hlength : page.rows.length ≤ pageSize) (hmore : page.hasMore = false) :
    Tiles page.rows pageSize [page] where
  rows_eq := by simp
  length_le := by simpa using hlength
  hasMore_iff before other after heq := by
    obtain ⟨rfl, hrest⟩ := List.cons_eq_append_iff.mp heq |>.resolve_right (by simp)
    obtain ⟨rfl, rfl⟩ := List.cons.inj hrest
    simp [hmore]

theorem Tiles.cons {page : QueryResult Row} {rows : List Row} {pageSize : ℕ}
    (h : Tiles rows pageSize pages) (hlength : page.rows.length ≤ pageSize)
    (hmore : page.hasMore = true) (hrows : rows ≠ []) :
    Tiles (page.rows ++ rows) pageSize (page :: pages) where
  rows_eq := by rw [List.flatMap_cons, h.rows_eq]
  length_le := List.forall_mem_cons.mpr ⟨hlength, h.length_le⟩
  hasMore_iff before other after heq := by
    rcases List.cons_eq_append_iff.mp heq with ⟨rfl, hrest⟩ | ⟨before', rfl, hrest⟩
    · obtain ⟨rfl, rfl⟩ := List.cons.inj hrest
      rw [← h.rows_eq, Ne, List.flatMap_eq_nil_iff] at hrows
      push Not at hrows
      exact iff_of_true hmore hrows
    · exact h.hasMore_iff before' other after hrest

/-- The run from an offset ends, and its pages cut up the rows of the limit from there on. The
induction is on the rows that are left. -/
theorem exists_pagesFrom (params : List Sql.Value) (warnings : List String)
    (hpage : opts.maxLimit ≠ 0) {offset : UInt64} (hoffset : offset.toNat < 2 ^ 63)
    (hfits : BoundFits { q with offset } opts.maxLimit)
    (hoffsets : OffsetsFit offset.toNat opts.maxLimit.toNat (stop q.limit matching)) :
    ∃ pages, PagesFrom q opts params warnings matching offset pages ∧
      Tiles ((matching.take (stop q.limit matching)).drop offset.toNat) opts.maxLimit.toNat
        pages := by
  induction hleft : stop q.limit matching - offset.toNat using Nat.strong_induction_on
    generalizing offset with
  | h left ih =>
    have hnext : offset.toNat + opts.maxLimit.toNat < stop q.limit matching →
        offset.toNat + opts.maxLimit.toNat < 2 ^ 63 := by
      simpa using hoffsets 1
    obtain ⟨page, hrun, hrows, hmore, hcontinue⟩ := queryWithMetadata_gql (q := { q with offset })
      params matching warnings hpage hoffset hfits hnext
    simp only at hrows hmore hcontinue
    have hpos : opts.maxLimit.toNat ≠ 0 := fun h ↦ hpage (UInt64.toNat_inj.mp h)
    have hlength : page.rows.length ≤ opts.maxLimit.toNat := by
      rw [hrows]
      exact List.length_take_le _ _
    have hle := stop_le q.limit matching
    by_cases hlast : offset.toNat + opts.maxLimit.toNat < stop q.limit matching
    · rw [if_pos hlast] at hcontinue
      have hnat : (UInt64.ofNat (offset.toNat + opts.maxLimit.toNat)).toNat =
          offset.toNat + opts.maxLimit.toNat :=
        UInt64.toNat_ofNat_of_lt' ((hnext hlast).trans (by decide))
      have hfits' : BoundFits { q with
          offset := UInt64.ofNat (offset.toNat + opts.maxLimit.toNat) } opts.maxLimit := by
        rcases hfits with hsmall | ⟨limit, hlimit, hlt⟩
        · exact Or.inl hsmall
        · refine Or.inr ⟨limit, hlimit, ?_⟩
          simp only [hnat] at hlt ⊢
          omega
      have hoffsets' : OffsetsFit (UInt64.ofNat (offset.toNat + opts.maxLimit.toNat)).toNat
          opts.maxLimit.toNat (stop q.limit matching) := by
        intro k hk
        have hstep := hoffsets (k + 1)
        rw [hnat] at hk ⊢
        rw [Nat.add_mul, Nat.one_mul, Nat.add_comm (k * _), ← Nat.add_assoc] at hstep
        exact hstep hk
      obtain ⟨pages, hpages, htiles⟩ := ih _ (by rw [hnat]; omega) (by rw [hnat]; exact hnext hlast)
        hfits' hoffsets' rfl
      refine ⟨page :: pages, .next hrun hcontinue hpages, ?_⟩
      rw [hnat] at htiles
      -- the page and what the later pages tile make up the rows
      have hsplit : page.rows ++ (matching.take (stop q.limit matching)).drop
          (offset.toNat + opts.maxLimit.toNat) =
          (matching.take (stop q.limit matching)).drop offset.toNat := by
        rw [hrows, ← List.drop_drop, List.take_append_drop]
      rw [← hsplit]
      refine htiles.cons hlength (hmore.mpr hlast) fun hnil ↦ ?_
      have hlen := List.drop_eq_nil_iff.mp hnil
      rw [List.length_take, min_eq_left hle] at hlen
      omega
    · rw [if_neg hlast] at hcontinue
      refine ⟨[page], .last hrun hcontinue, ?_⟩
      -- the last page has all rows that are left
      have hall : page.rows = (matching.take (stop q.limit matching)).drop offset.toNat := by
        rw [hrows]
        refine List.take_of_length_le ?_
        rw [List.length_drop, List.length_take, min_eq_left hle]
        omega
      rw [← hall]
      exact Tiles.singleton hlength (Bool.eq_false_iff.mpr fun h ↦ hlast (hmore.mp h))

/-- Running a query and following its continuations ends, in one way, and the pages are the rows
from the offset up to the limit, as long as the bound of the statement is within `i64`. -/
theorem pagesFrom_tiles (q : GqlQuery) (opts : CompileOptions) (params : List Sql.Value)
    (warnings : List String) (matching : List Row) (hpage : opts.maxLimit ≠ 0)
    (hoffset : q.offset.toNat < 2 ^ 63)
    (hoffsets : OffsetsFit q.offset.toNat opts.maxLimit.toNat (stop q.limit matching))
    (hfits : BoundFits q opts.maxLimit) :
    ∃ pages, PagesFrom q opts params warnings matching q.offset pages ∧
      (∀ others, PagesFrom q opts params warnings matching q.offset others → others = pages) ∧
      Tiles ((matching.take (stop q.limit matching)).drop q.offset.toNat) opts.maxLimit.toNat
        pages := by
  obtain ⟨pages, hpages, htiles⟩ := exists_pagesFrom params warnings hpage hoffset hfits hoffsets
  exact ⟨pages, hpages, fun _ hothers ↦ hothers.unique hpages, htiles⟩

/-- Every node, with a limit. -/
def sampleQuery (limit : Option UInt64) : GqlQuery where
  elements := []
  whereClause := .true
  returnItems := []
  offset := 1
  limit := limit

/-- Rows 1, 2 and 3 of six, on two pages. -/
theorem pagesFrom_tiles_sample :
    ∃ pages, PagesFrom (sampleQuery (some 4)) ⟨[], 2⟩ [] [] [10, 11, 12, 13, 14, 15] 1 pages ∧
      (∀ others, PagesFrom (sampleQuery (some 4)) ⟨[], 2⟩ [] [] [10, 11, 12, 13, 14, 15] 1 others →
        others = pages) ∧
      Tiles [11, 12, 13] 2 pages :=
  pagesFrom_tiles (sampleQuery (some 4)) ⟨[], 2⟩ [] [] [10, 11, 12, 13, 14, 15] (by decide)
    (by decide) (fun k hk ↦ hk.trans (by decide)) (Or.inl (by decide))

/-- A page of `i64::MAX` rows asks for one row more, which is not an `i64`. -/
theorem not_pagesFrom_huge : ¬∃ pages,
    PagesFrom (sampleQuery none) ⟨[], 2 ^ 63 - 1⟩ [] [] [10, 11, 12, 13, 14, 15] 1 pages := by
  have herror : queryWithMetadata .gql { sampleQuery none with offset := 1 } ⟨[], 2 ^ 63 - 1⟩ [] []
      [10, 11, 12, 13, 14, 15] = .error (.query (.invalidInput "limit exceeds i64::MAX")) := by
    decide +kernel
  rintro ⟨pages, hpages⟩
  cases hpages with
  | last hpage _ =>
    rw [herror] at hpage
    cases hpage
  | next hpage _ _ =>
    rw [herror] at hpage
    cases hpage

end Pages

end Query

end Khive
