/-
# `OpenViking.Query.Tenant` — the scope of a tenant's queries

Every query of a tenant is narrowed to what the request context may see
(`tenantFilter`).  Where all targets of the query lie under visible roots, only
the account is kept of that filter and the targets do the narrowing
(`buildScopeFilter`).  That is sound as long as a target is cut into parts by the
request layer as its path is cut into components by the store, and there is one
place where it is not: the pattern for identifiers ends in `$`, which also
matches before a line end, and the line end is then a part of the root of the
user but not of its path (`never_widens_iff`).
-/
import OpenViking.Query.Expr
import OpenViking.Lib.Text
import Mathlib.Data.List.Sort

namespace OpenViking.Query

open OpenViking.Lib

/-! ## Identities -/

/-- `[a-zA-Z0-9_.@-]` -/
def identifierChar (c : Char) : Bool :=
  c.isAlphanum || c == '_' || c == '.' || c == '@' || c == '-'

/-- `_VALIDATION_PATTERN.match`: the `$` of the pattern also matches before a line end
that ends the string. -/
def matchesPattern (part : Str) : Bool :=
  let body := if part.getLast? = some '\n' then part.dropLast else part
  !body.isEmpty && body.all identifierChar

/-- `validate_identifier_part` -/
def validateIdentifierPart (part : Str) (partName : String) : Option String :=
  if part = [] then some (partName ++ " is empty")
  else if part = ['.'] ∨ part = ['.', '.'] then some (partName ++ " must not be '.' or '..'")
  else if !matchesPattern part then some (partName ++ " must be alpha_numeric string.")
  else if part.count '@' > 1 then some (partName ++ " must have at most one @.")
  else none

/-- `validate_account_id` -/
def validateAccountId (accountId : Str) : Option String :=
  match validateIdentifierPart accountId "account_id" with
  | some error => some error
  | none =>
      if accountId.head? = some '_' then some "account_id cannot start with underscore _."
      else none

/-- `validate_user_id` -/
def validateUserId (userId : Str) : Option String := validateIdentifierPart userId "user_id"

/-- `UserIdentifier`, which raises on invalid names. -/
structure UserIdentifier where
  accountId : Str
  userId : Str
  account_valid : validateAccountId accountId = none
  user_valid : validateUserId userId = none

/-- `Role` -/
inductive Role
  | root
  | admin
  | user
  | custom (name : Str)
  deriving DecidableEq

/-- `RequestContext` -/
structure RequestContext where
  user : UserIdentifier
  role : Role
  groupIds : List Str
  bypassAcl : Bool

/-! ## Roots and grants -/

/-- `canonical_user_root` -/
def canonicalUserRoot (ctx : RequestContext) : Str :=
  scheme ++ "user/".toList ++ ctx.user.userId

/-- `visible_roots` -/
def visibleRoots (ctx : RequestContext) : List Str :=
  [scheme ++ "resources".toList, scheme ++ "agent/skills".toList, canonicalUserRoot ctx]

/-- `AclLevel`, and the actions of the same names -/
inductive AclLevel
  | read
  | write
  | manage

/-- `_LEVEL_MASK` -/
def AclLevel.mask : AclLevel → Nat
  | read => 1
  | write => 3
  | manage => 7

/-- `acl_principals` -/
def aclPrincipals (ctx : RequestContext) : List Str :=
  ("user:".toList ++ ctx.user.userId) :: "user:*".toList ::
    ctx.groupIds.map ("group:".toList ++ ·)

/-- `acl_grant_tokens` -/
def aclGrantTokens (principals : List Str) (action : AclLevel) : List Str :=
  (principals.dedup.mergeSort fun a b => decide (a ≤ b)).flatMap fun principal =>
    ([AclLevel.read, .write, .manage].filter fun level =>
      level.mask &&& action.mask == action.mask).map fun level =>
        decimalNat level.mask ++ ':' :: principal

/-! ## Filters -/

/-- `Or([PathScope("uri", root, depth=-1) for root in roots])` -/
def underAny (roots : List Str) : FilterExpr :=
  .or (roots.map fun root => .pathScope "uri".toList root (-1))

/-- `Eq("account_id", ctx.account_id)` -/
def accountFilter (ctx : RequestContext) : FilterExpr :=
  .eq "account_id".toList (.str ctx.user.accountId)

/-- What the access rules add to the account, for an account with ACLs. -/
def accessFilters (ctx : RequestContext) : List FilterExpr :=
  let resources := scheme ++ "resources".toList
  let readGrants := (aclGrantTokens (aclPrincipals ctx) .read).map Value.str
  let legacyFilter := FilterExpr.and
    [.rawDsl (.mustNot "acl_enabled".toList [.bool true] []), underAny (visibleRoots ctx)]
  let sharedAclFilter := FilterExpr.and
    [.pathScope "uri".toList resources (-1),
      .or [.isIn "acl_direct_grants".toList readGrants,
        .isIn "acl_inherited_grants".toList readGrants]]
  [legacyFilter, sharedAclFilter,
      .pathScope "uri".toList (canonicalUserRoot ctx ++ "/resources".toList) (-1)] ++
    if ctx.role = .admin then [.pathScope "uri".toList resources (-1)] else []

/-- `_tenant_filter` -/
def tenantFilter (aclEnabled : Bool) (ctx : RequestContext) : Option FilterExpr :=
  if ctx.bypassAcl then some (accountFilter ctx)
  else if ctx.role = .root then none
  else if !aclEnabled then some (.and [accountFilter ctx, underAny (visibleRoots ctx)])
  else some (.and [accountFilter ctx, .or (accessFilters ctx)])

/-- Every target lies under a root; later targets are not looked at after one that does not. -/
def allWithin (rootParts : List (List Str)) : List Str → Except String Bool
  | [] => .ok true
  | target :: targets =>
      match uriParts target with
      | .error e => .error e
      | .ok parts =>
          if rootParts.any fun root => decide (root <+: parts) then allWithin rootParts targets
          else .ok false

/-- `_targets_within_visible_roots` -/
def targetsWithinVisibleRoots (ctx : RequestContext) (targets : List Str) : Except String Bool :=
  if targets = [] then .ok false
  else
    match (visibleRoots ctx).mapM uriParts with
    | .error e => .error e
    | .ok rootParts => allWithin rootParts targets

/-- The filter an additional condition stands for: an expression, or a node of the store's
language, where `{}` is no condition. -/
inductive ExtraFilter
  | expr (filter : FilterExpr)
  | dict (payload : Dsl)

def ExtraFilter.filters : ExtraFilter → List FilterExpr
  | expr filter => [filter]
  | dict .empty => []
  | dict payload => [.rawDsl payload]

/-- `RawDSL` of an `and` without conditions -/
def isVoid : FilterExpr → Bool
  | .rawDsl (.and []) => true
  | _ => false

/-- `_merge_filters` -/
def mergeFilters (filters : List FilterExpr) : Option FilterExpr :=
  match filters.filter fun f => !isVoid f with
  | [] => none
  | [f] => some f
  | nonEmpty => some (.and nonEmpty)

/-- The tenant filter, or only its account where the targets are narrower already. -/
def narrowedTenantFilter (aclEnabled : Bool) (ctx : RequestContext) (targets : List Str) :
    Except String (Option FilterExpr) :=
  match tenantFilter aclEnabled ctx with
  | none => .ok none
  | some full =>
      if aclEnabled then .ok (some full)
      else
        match targetsWithinVisibleRoots ctx targets with
        | .error e => .error e
        | .ok true => .ok (some (accountFilter ctx))
        | .ok false => .ok (some full)

/-- The settings of a query. -/
structure ScopeRequest where
  contextType : Str
  targetDirectories : List Str
  extraFilter : Option ExtraFilter
  level : List Int

/-- The conditions of a query, in the order they are collected. -/
def scopeFilters (tenant : Option FilterExpr) (targets : List Str) (request : ScopeRequest) :
    List FilterExpr :=
  (if request.contextType = [] then []
    else [.eq "context_type".toList (.str request.contextType)]) ++
  (tenant.toList ++
  ((if targets = [] then [] else [underAny targets]) ++
  (request.extraFilter.elim [] ExtraFilter.filters ++
  if request.level = [] then []
    else [.isIn "level".toList (request.level.map fun l => .num l)])))

/-- `_build_scope_filter` -/
def buildScopeFilter (aclEnabled : Bool) (ctx : RequestContext) (request : ScopeRequest) :
    Except String (Option FilterExpr) :=
  let targets := request.targetDirectories.filter (· ≠ [])
  match narrowedTenantFilter aclEnabled ctx targets with
  | .error e => .error e
  | .ok tenant => .ok (mergeFilters (scopeFilters tenant targets request))

/-! ## Names -/

theorem identifierChar_bounds {c : Char} (h : identifierChar c = true) :
    45 ≤ c.toNat ∧ c.toNat ≤ 122 ∧ c.toNat ≠ '/'.toNat ∧ c.toNat ≠ '?'.toNat := by
  have hval : ∀ d : Char, (c == d) = true → c.toNat = d.toNat := by
    intro d hd
    rw [beq_iff_eq.mp hd]
  have hslash : '/'.toNat = 47 := rfl
  have hquery : '?'.toNat = 63 := rfl
  have hrange : ∀ {low high : Char},
    (decide (c.val ≥ low.val) && decide (c.val ≤ high.val)) = true →
      low.toNat ≤ c.toNat ∧ c.toNat ≤ high.toNat := by
    intro low high h
    rwa [Bool.and_eq_true, decide_eq_true_eq, decide_eq_true_eq] at h
  have hcases : (c.isUpper || c.isLower || c.isDigit || c == '_' || c == '.' || c == '@' ||
      c == '-') = true := h
  simp only [Bool.or_eq_true] at hcases
  rcases hcases with (((((h | h) | h) | h) | h) | h) | h
  · have h : 65 ≤ c.toNat ∧ c.toNat ≤ 90 := of_decide_eq_true h
    omega
  · have h : 97 ≤ c.toNat ∧ c.toNat ≤ 122 := @hrange 'a' 'z' h
    omega
  · have h : 48 ≤ c.toNat ∧ c.toNat ≤ 57 := @hrange '0' '9' h
    omega
  all_goals
    have h := hval _ h
    simp only [Char.reduceToNat] at h hslash hquery ⊢
    omega

theorem isSpace_of_identifierChar {c : Char} (h : identifierChar c = true) : isSpace c = false := by
  have := identifierChar_bounds h
  exact isSpace_eq_false (by omega) (by omega)

theorem ne_slash_of_identifierChar {c : Char} (h : identifierChar c = true) : c ≠ '/' := by
  rintro rfl
  exact (identifierChar_bounds h).2.2.1 rfl

/-- A valid name, up to a line end at its end, is made of the characters of the pattern. -/
theorem exists_body {part : Str} {partName : String}
    (h : validateIdentifierPart part partName = none) :
    ∃ body, body ≠ [] ∧ (∀ c ∈ body, identifierChar c = true) ∧
      (part = body ∨ part = body ++ ['\n']) := by
  unfold validateIdentifierPart at h
  split at h
  · cases h
  · split at h
    · cases h
    · split at h
      · cases h
      · next hmatch =>
          simp only [matchesPattern, Bool.not_eq_true', Bool.not_eq_false, Bool.and_eq_true,
            List.isEmpty_eq_false_iff, List.all_eq_true] at hmatch
          refine ⟨_, hmatch.1, hmatch.2, ?_⟩
          split
          · next hlast =>
              exact Or.inr (List.dropLast_append_getLast? _ hlast).symm
          · exact Or.inl rfl

/-! ## Roots -/

/-- The parts of the visible roots. -/
def rootNames (ctx : RequestContext) : List (List Str) :=
  [["resources".toList], ["agent".toList, "skills".toList], ["user".toList, ctx.user.userId]]

section

variable {ctx : RequestContext}

theorem userId_ne_nil (ctx : RequestContext) : ctx.user.userId ≠ [] := by
  obtain ⟨body, hne, -, hbody | hbody⟩ := exists_body ctx.user.user_valid
  · rwa [hbody]
  · simp [hbody]

theorem notMem_userId {c : Char} (hid : identifierChar c = false) (hc : c ≠ '\n') :
    c ∉ ctx.user.userId := by
  obtain ⟨body, -, hall, hbody⟩ := exists_body ctx.user.user_valid
  have hnot : c ∉ body := by
    intro h
    rw [hall c h] at hid
    cases hid
  rcases hbody with hbody | hbody
  · rwa [hbody]
  · simp [hbody, hnot, hc]

theorem segments_user {name : Str} (hne : name ≠ []) (hslash : '/' ∉ name) :
    segments '/' ("user/".toList ++ name) = ["user".toList, name] := by
  have huser : segments '/' "user".toList = ["user".toList] := by decide
  have := segments_append_part (a := "user".toList) hslash
  rwa [if_neg hne, huser] at this

theorem mapM_uriParts_visibleRoots (ctx : RequestContext) :
    (visibleRoots ctx).mapM uriParts = .ok (rootNames ctx) := by
  have huser : uriParts (canonicalUserRoot ctx) = .ok ["user".toList, ctx.user.userId] := by
    rw [canonicalUserRoot, List.append_assoc, uriParts_scheme_append,
      segments_user (userId_ne_nil ctx) (notMem_userId (by decide) (by decide))]
    rw [List.mem_append, not_or]
    exact ⟨by decide, notMem_userId (by decide) (by decide)⟩
  have hresources : uriParts (scheme ++ "resources".toList) = .ok ["resources".toList] := by decide
  have hskills : uriParts (scheme ++ "agent/skills".toList) =
      .ok ["agent".toList, "skills".toList] := by decide
  simp only [visibleRoots, List.mapM_cons, List.mapM_nil, hresources, hskills, huser]
  rfl

/-- Without a line end at its end the name is made of the characters of the pattern. -/
theorem identifierChar_of_getLast? (h : ctx.user.userId.getLast? ≠ some '\n') {c : Char}
    (hc : c ∈ ctx.user.userId) : identifierChar c = true := by
  obtain ⟨body, -, hall, hbody | hbody⟩ := exists_body ctx.user.user_valid
  · exact hall c (hbody ▸ hc)
  · exact absurd (by simp [hbody]) h

theorem components_of_body {body : Str} (hne : body ≠ [])
    (hall : ∀ c ∈ body, identifierChar c = true) :
    components (scheme ++ ("user/".toList ++ body)) = ["user".toList, body] := by
  have hslash : '/' ∉ body := fun h => ne_slash_of_identifierChar (hall _ h) rfl
  have hlast := hall _ (List.getLast_mem hne)
  have hend : ("user/".toList ++ body).getLast? = some (body.getLast hne) := by
    rw [List.getLast?_append, List.getLast?_eq_some_getLast hne]
    rfl
  rw [components_eq_segments _
    ⟨_, hend, ne_slash_of_identifierChar hlast, isSpace_of_identifierChar hlast⟩,
    segments_user hne hslash]
  intro x hx
  obtain rfl : 'u' = x := Option.some.inj hx
  decide

/-- The roots of a user whose name does not end in a line end have their parts as components. -/
theorem exists_root_of_mem_rootNames (h : ctx.user.userId.getLast? ≠ some '\n')
    {names : List Str} (hn : names ∈ rootNames ctx) :
    (∃ root ∈ visibleRoots ctx, components root = names) ∧
      ∀ name x, names.getLast? = some name → name.getLast? = some x → isSpace x = false := by
  simp only [rootNames, List.mem_cons, List.not_mem_nil, or_false] at hn
  rcases hn with rfl | rfl | rfl
  · refine ⟨⟨scheme ++ "resources".toList, by simp [visibleRoots], by decide⟩, ?_⟩
    intro name x hname hx
    obtain rfl := Option.some.inj hname
    exact Option.some.inj hx ▸ by decide
  · refine ⟨⟨scheme ++ "agent/skills".toList, by simp [visibleRoots], by decide⟩, ?_⟩
    intro name x hname hx
    obtain rfl := Option.some.inj hname
    exact Option.some.inj hx ▸ by decide
  · refine ⟨⟨canonicalUserRoot ctx, by simp [visibleRoots], ?_⟩, ?_⟩
    · rw [canonicalUserRoot, List.append_assoc]
      exact components_of_body (userId_ne_nil ctx) fun c => identifierChar_of_getLast? h
    · intro name x hname hx
      obtain rfl := Option.some.inj hname
      exact isSpace_of_identifierChar (identifierChar_of_getLast? h (List.mem_of_getLast? hx))

end

/-! ## The shortcut -/

theorem allWithin_eq_true {rootParts : List (List Str)} {targets : List Str}
    (h : allWithin rootParts targets = .ok true) :
    ∀ target ∈ targets, ∃ parts names, uriParts target = .ok parts ∧ names ∈ rootParts ∧
      names <+: parts := by
  induction targets with
  | nil => exact fun _ ht => nomatch ht
  | cons t targets ih =>
      unfold allWithin at h
      split at h
      · cases h
      · next parts hparts =>
          split at h
          · next hany =>
              obtain ⟨names, hnames, hpre⟩ := List.any_eq_true.mp hany
              intro target ht
              rcases List.mem_cons.mp ht with rfl | ht
              · exact ⟨parts, names, hparts, hnames, of_decide_eq_true hpre⟩
              · exact ih h target ht
          · cases h

/-- A record below a target that lies under a root lies under that root. -/
theorem under_root_of_under_target {target uri : Str} {parts names : List Str}
    (hparts : uriParts target = .ok parts) (hnames : names <+: parts)
    (hlast : ∀ name x, names.getLast? = some name → name.getLast? = some x → isSpace x = false)
    (hquery : ∀ name ∈ components uri, '?' ∉ name)
    (hunder : components target <+: components uri) : names <+: components uri := by
  obtain ⟨rest, query, rfl, rfl, hq⟩ := uriParts_eq_ok hparts
  by_cases hnil : query = []
  · rw [hnil, List.append_nil] at hunder
    exact (prefix_components hlast hnames).trans hunder
  · -- a component with a `?` in it is none of the record's
    rw [List.append_assoc] at hunder
    obtain ⟨name, hmem, hin⟩ := exists_mem_components
      (List.mem_append_right rest (hq hnil)) (by decide) (by decide)
    exact absurd hin (hquery name (hunder.subset hmem))

/-! ## What the scope filter accepts -/

section

variable {ctx : RequestContext} {raw : Dsl → Bool} {record : Record}

/-- The record passes the filter; without a filter every record does. -/
def Accepts (raw : Dsl → Bool) (record : Record) (filter : Option FilterExpr) : Prop :=
  ∀ f, filter = some f → f.holds raw record = true

theorem holds_underAny {roots : List Str} :
    (underAny roots).holds raw record = true ↔
      ∃ uri, record "uri".toList = .str uri ∧
        ∃ root ∈ roots, components root <+: components uri := by
  have hfield : ∀ path, fieldComponents "uri".toList path = components path :=
    fun path => if_pos (by decide)
  simp only [underAny, FilterExpr.holds_or, List.any_map, List.any_eq_true, Function.comp_apply,
    FilterExpr.holds_pathScope, within_neg_one, hfield]
  constructor
  · rintro ⟨root, hroot, uri, huri, hunder⟩
    exact ⟨uri, huri, root, hroot, hunder⟩
  · rintro ⟨uri, huri, root, hroot, hunder⟩
    exact ⟨root, hroot, uri, huri, hunder⟩

theorem holds_accountFilter : (accountFilter ctx).holds raw record = true ↔
    record "account_id".toList = .str ctx.user.accountId := by
  rw [accountFilter, FilterExpr.holds, Value.same_str]

/-- The tenant filter of a context that is neither root nor bypasses the rules. -/
theorem exists_tenantFilter (aclEnabled : Bool) (hrole : ctx.role ≠ .root)
    (hbypass : ctx.bypassAcl = false) :
    ∃ access, tenantFilter aclEnabled ctx = some (.and [accountFilter ctx, access]) ∧
      (aclEnabled = false → access = underAny (visibleRoots ctx)) := by
  unfold tenantFilter
  rw [if_neg (by simp [hbypass]), if_neg hrole]
  cases aclEnabled with
  | false => exact ⟨_, rfl, fun _ => rfl⟩
  | true => exact ⟨_, rfl, by simp⟩

/-- Every filter that is not void has to hold. -/
theorem holds_of_accepts_mergeFilters {filters : List FilterExpr}
    (h : Accepts raw record (mergeFilters filters)) {f : FilterExpr} (hf : f ∈ filters)
    (hvoid : isVoid f = false) : f.holds raw record = true := by
  have hmem : f ∈ filters.filter fun f => !isVoid f := List.mem_filter.mpr ⟨hf, by simp [hvoid]⟩
  unfold mergeFilters at h
  split at h
  · next hnil => simp [hnil] at hmem
  · next g hone =>
      rw [hone] at hmem
      exact List.mem_singleton.mp hmem ▸ h g rfl
  · have hall := h _ rfl
    rw [FilterExpr.holds_and] at hall
    exact List.all_eq_true.mp hall f hmem

/-- What a built filter consists of: the narrowed tenant filter and the targets. -/
theorem buildScopeFilter_eq_ok {aclEnabled : Bool} {request : ScopeRequest}
    {filter : Option FilterExpr} (h : buildScopeFilter aclEnabled ctx request = .ok filter) :
    ∃ tenant filters, narrowedTenantFilter aclEnabled ctx
        (request.targetDirectories.filter (· ≠ [])) = .ok tenant ∧
      filter = mergeFilters filters ∧ (∀ f ∈ tenant, f ∈ filters) ∧
      (request.targetDirectories.filter (· ≠ []) ≠ [] →
        underAny (request.targetDirectories.filter (· ≠ [])) ∈ filters) := by
  unfold buildScopeFilter at h
  extract_lets targets at h
  split at h
  · cases h
  · next tenant htenant =>
      refine ⟨tenant, _, htenant, (Except.ok.inj h).symm, ?_, ?_⟩
      · intro f hf
        exact List.mem_append_right _ (List.mem_append_left _ (Option.mem_toList.mpr hf))
      · intro hne
        refine List.mem_append_right _ (List.mem_append_right _ (List.mem_append_left _ ?_))
        rw [if_neg hne]
        exact List.mem_singleton_self _

/-- The record is one the context may see. -/
def InTenantScope (aclEnabled : Bool) (ctx : RequestContext) (raw : Dsl → Bool) (record : Record) :
    Prop :=
  record "account_id".toList = .str ctx.user.accountId ∧
    ∃ full, tenantFilter aclEnabled ctx = some full ∧ full.holds raw record = true

/-- The components of the record's URI have no `?`. -/
def Unqueried (record : Record) : Prop :=
  ∀ uri, record "uri".toList = .str uri → ∀ name ∈ components uri, '?' ∉ name

theorem inTenantScope_of_holds {aclEnabled : Bool} (hrole : ctx.role ≠ .root)
    (hbypass : ctx.bypassAcl = false) {full : FilterExpr}
    (hfull : tenantFilter aclEnabled ctx = some full) (h : full.holds raw record = true) :
    InTenantScope aclEnabled ctx raw record := by
  obtain ⟨access, hsome, -⟩ := exists_tenantFilter aclEnabled hrole hbypass
  refine ⟨?_, full, hfull, h⟩
  obtain rfl := Option.some.inj (hfull.symm.trans hsome)
  rw [FilterExpr.holds_and] at h
  exact holds_accountFilter.mp (List.all_eq_true.mp h _ (by simp))

theorem inTenantScope_of_accepts (hrole : ctx.role ≠ .root) (hbypass : ctx.bypassAcl = false)
    (hname : ctx.user.userId.getLast? ≠ some '\n') {aclEnabled : Bool} {request : ScopeRequest}
    {filter : Option FilterExpr} (hrecord : Unqueried record)
    (hbuild : buildScopeFilter aclEnabled ctx request = .ok filter)
    (haccepts : Accepts raw record filter) : InTenantScope aclEnabled ctx raw record := by
  obtain ⟨tenant, filters, htenant, rfl, hmem, htargets⟩ := buildScopeFilter_eq_ok hbuild
  obtain ⟨access, hfull, hroots⟩ := exists_tenantFilter aclEnabled hrole hbypass
  have hholds : ∀ f ∈ filters, isVoid f = false → f.holds raw record = true :=
    fun f => holds_of_accepts_mergeFilters haccepts
  unfold narrowedTenantFilter at htenant
  simp only [hfull] at htenant
  split at htenant
  · -- with ACLs the whole tenant filter is there
    obtain rfl := Except.ok.inj htenant
    exact inTenantScope_of_holds hrole hbypass hfull (hholds _ (hmem _ rfl) rfl)
  · next hacl =>
      split at htenant
      · cases htenant
      · next hwithin =>
          -- the shortcut: the targets stand for the roots
          obtain rfl := Except.ok.inj htenant
          have haccount := holds_accountFilter.mp (hholds _ (hmem _ rfl) rfl)
          refine ⟨haccount, _, hfull, ?_⟩
          unfold targetsWithinVisibleRoots at hwithin
          rw [mapM_uriParts_visibleRoots] at hwithin
          split at hwithin
          · cases hwithin
          · next hne =>
              obtain ⟨uri, huri, target, htarget, hunder⟩ :=
                holds_underAny.mp (hholds _ (htargets hne) rfl)
              obtain ⟨parts, names, hparts, hnames, hpre⟩ :=
                allWithin_eq_true hwithin target htarget
              obtain ⟨⟨root, hroot, hcomps⟩, hlast⟩ := exists_root_of_mem_rootNames hname hnames
              have hunderRoot := under_root_of_under_target hparts hpre hlast
                (hrecord uri huri) hunder
              have haccess : access.holds raw record = true := by
                rw [hroots (by simpa using hacl)]
                exact holds_underAny.mpr ⟨uri, huri, root, hroot, hcomps ▸ hunderRoot⟩
              simp [FilterExpr.holds_and, holds_accountFilter.mpr haccount, haccess]
      · obtain rfl := Except.ok.inj htenant
        exact inTenantScope_of_holds hrole hbypass hfull (hholds _ (hmem _ rfl) rfl)

end

/-! ## A line end in a name -/

section

variable {ctx : RequestContext} {raw : Dsl → Bool}

/-- A place below the root of the user. -/
def ownPlace (ctx : RequestContext) : Str := canonicalUserRoot ctx ++ "/x".toList

/-- A record there. -/
def ownRecord (ctx : RequestContext) : Record := fun field =>
  if field = "uri".toList then .str (ownPlace ctx)
  else if field = "account_id".toList then .str ctx.user.accountId
  else .none

/-- A query for that place. -/
def ownRequest (ctx : RequestContext) : ScopeRequest := ⟨[], [ownPlace ctx], none, []⟩

theorem segments_ownPlace (ctx : RequestContext) :
    segments '/' ("user/".toList ++ ctx.user.userId ++ "/x".toList) =
      ["user".toList, ctx.user.userId, "x".toList] := by
  have hx : segments '/' "x".toList = ["x".toList] := by decide
  refine (segments_append_cons ("user/".toList ++ ctx.user.userId) "x".toList).trans ?_
  rw [segments_user (userId_ne_nil ctx) (notMem_userId (by decide) (by decide)), hx]
  rfl

theorem ownPlace_eq (ctx : RequestContext) :
    ownPlace ctx = scheme ++ ("user/".toList ++ ctx.user.userId ++ "/x".toList) := by
  simp [ownPlace, canonicalUserRoot]

theorem components_ownPlace (ctx : RequestContext) :
    components (ownPlace ctx) = ["user".toList, ctx.user.userId, "x".toList] := by
  rw [ownPlace_eq, components_eq_segments, segments_ownPlace]
  · intro x hx
    obtain rfl : 'u' = x := Option.some.inj hx
    decide
  · refine ⟨'x', ?_, by decide, by decide⟩
    rw [List.getLast?_append]
    rfl

theorem unqueried_ownRecord (ctx : RequestContext) : Unqueried (ownRecord ctx) := by
  intro uri huri name hname
  obtain rfl : ownPlace ctx = uri := Value.str.inj huri
  simp only [components_ownPlace, List.mem_cons, List.not_mem_nil, or_false] at hname
  rcases hname with rfl | rfl | rfl
  · decide
  · exact notMem_userId (by decide) (by decide)
  · decide

theorem targetsWithin_ownPlace (ctx : RequestContext) :
    targetsWithinVisibleRoots ctx [ownPlace ctx] = .ok true := by
  have hquery : '?' ∉ "user/".toList ++ ctx.user.userId ++ "/x".toList := by
    simp only [List.mem_append, not_or]
    exact ⟨⟨by decide, notMem_userId (by decide) (by decide)⟩, by decide⟩
  have hparts : uriParts (ownPlace ctx) = .ok ["user".toList, ctx.user.userId, "x".toList] := by
    rw [ownPlace_eq, uriParts_scheme_append hquery, segments_ownPlace]
  have hany : (rootNames ctx).any
      (fun root => decide (root <+: ["user".toList, ctx.user.userId, "x".toList])) = true := by
    refine List.any_eq_true.mpr ⟨["user".toList, ctx.user.userId], by simp [rootNames], ?_⟩
    exact decide_eq_true ⟨["x".toList], rfl⟩
  unfold targetsWithinVisibleRoots
  rw [if_neg (List.cons_ne_nil _ _), mapM_uriParts_visibleRoots]
  simp only [allWithin, hparts, hany, if_true]

theorem buildScopeFilter_ownRequest (hrole : ctx.role ≠ .root) (hbypass : ctx.bypassAcl = false) :
    buildScopeFilter false ctx (ownRequest ctx) =
      .ok (some (.and [accountFilter ctx, underAny [ownPlace ctx]])) := by
  obtain ⟨access, hfull, -⟩ := exists_tenantFilter false hrole hbypass
  have htargets : (ownRequest ctx).targetDirectories.filter (· ≠ []) = [ownPlace ctx] := rfl
  unfold buildScopeFilter narrowedTenantFilter
  simp only [htargets, hfull, targetsWithin_ownPlace]
  rfl

theorem accepts_ownRecord :
    Accepts raw (ownRecord ctx) (some (.and [accountFilter ctx, underAny [ownPlace ctx]])) := by
  intro f hf
  obtain rfl := Option.some.inj hf
  rw [FilterExpr.holds_and, List.all_eq_true]
  intro f hf
  simp only [List.mem_cons, List.not_mem_nil, or_false] at hf
  rcases hf with rfl | rfl
  · exact holds_accountFilter.mpr rfl
  · exact holds_underAny.mpr ⟨_, rfl, _, List.mem_singleton_self _, List.prefix_rfl⟩

/-- The path of the user's root has lost the line end, so the record is not under it. -/
theorem not_inTenantScope_ownRecord (hrole : ctx.role ≠ .root) (hbypass : ctx.bypassAcl = false)
    (hname : ctx.user.userId.getLast? = some '\n') :
    ¬ InTenantScope false ctx raw (ownRecord ctx) := by
  obtain ⟨access, hsome, hroots⟩ := exists_tenantFilter false hrole hbypass
  rintro ⟨-, full, hfull, hholds⟩
  obtain rfl := Option.some.inj (hfull.symm.trans hsome)
  rw [hroots rfl, FilterExpr.holds_and, List.all_eq_true] at hholds
  obtain ⟨uri, huri, root, hroot, hunder⟩ := holds_underAny.mp
    (hholds _ (List.mem_cons_of_mem _ (List.mem_singleton_self _)))
  obtain rfl : ownPlace ctx = uri := Value.str.inj huri
  rw [components_ownPlace] at hunder
  simp only [visibleRoots, List.mem_cons, List.not_mem_nil, or_false] at hroot
  rcases hroot with rfl | rfl | rfl
  · have hc : components (scheme ++ "resources".toList) = ["resources".toList] := by decide
    rw [hc, List.cons_prefix_cons] at hunder
    exact absurd hunder.1 (by decide)
  · have hc : components (scheme ++ "agent/skills".toList) = ["agent".toList, "skills".toList] := by
      decide
    rw [hc, List.cons_prefix_cons] at hunder
    exact absurd hunder.1 (by decide)
  · obtain ⟨body, hne, hall, hbody | hbody⟩ := exists_body ctx.user.user_valid
    · -- the name ends in a character of the pattern
      have hlast := hall _ (List.mem_of_getLast? (hbody ▸ hname))
      exact absurd hlast (by decide)
    · have hroot : components (canonicalUserRoot ctx) = ["user".toList, body] := by
        rw [canonicalUserRoot, hbody, ← List.append_assoc, List.append_assoc scheme,
          components_append_space (by decide)]
        exact components_of_body hne hall
      rw [hroot, List.cons_prefix_cons, List.cons_prefix_cons, hbody] at hunder
      simpa using congrArg List.length hunder.2.1

end

/-- Whatever is asked for, a scope filter of the context accepts only records in its scope. -/
def NeverWidens (ctx : RequestContext) : Prop :=
  ∀ (aclEnabled : Bool) (request : ScopeRequest) (filter : Option FilterExpr) (raw : Dsl → Bool)
    (record : Record), Unqueried record → buildScopeFilter aclEnabled ctx request = .ok filter →
    Accepts raw record filter → InTenantScope aclEnabled ctx raw record

/-- The scope filters stay within the tenant scope exactly for the users whose name does not end
in a line end. -/
theorem never_widens_iff (ctx : RequestContext) (hrole : ctx.role ≠ .root)
    (hbypass : ctx.bypassAcl = false) :
    NeverWidens ctx ↔ ctx.user.userId.getLast? ≠ some '\n' := by
  constructor
  · intro h hname
    exact not_inTenantScope_ownRecord hrole hbypass hname
      (h false (ownRequest ctx) _ (fun _ => false) _ (unqueried_ownRecord ctx)
        (buildScopeFilter_ownRequest hrole hbypass) accepts_ownRecord)
  · intro hname aclEnabled request filter raw record hrecord hbuild haccepts
    exact inTenantScope_of_accepts hrole hbypass hname hrecord hbuild haccepts

/-- A user `alice` of the account `acme`. -/
def alice : RequestContext where
  user := ⟨"acme".toList, "alice".toList, by decide, by decide⟩
  role := .user
  groupIds := []
  bypassAcl := false

theorem alice_never_widens : NeverWidens alice :=
  (never_widens_iff alice (by decide) rfl).mpr (by decide)

/-- The name `alice` with a line end passes the validation as well. -/
def aliceLine : RequestContext where
  user := ⟨"acme".toList, "alice\n".toList, by decide, by decide⟩
  role := .user
  groupIds := []
  bypassAcl := false

/-- The query for `viking://user/alice\n/x` finds a record there that the tenant filter, which
looks below `/user/alice`, rejects. -/
theorem aliceLine_leaves_scope :
    ∃ filter, buildScopeFilter false aliceLine (ownRequest aliceLine) = .ok filter ∧
      Unqueried (ownRecord aliceLine) ∧
      Accepts (fun _ => false) (ownRecord aliceLine) filter ∧
      ¬ InTenantScope false aliceLine (fun _ => false) (ownRecord aliceLine) :=
  ⟨_, buildScopeFilter_ownRequest (by decide) rfl, unqueried_ownRecord _, accepts_ownRecord,
    not_inTenantScope_ownRecord (by decide) rfl (by decide)⟩

end OpenViking.Query

/-! ## What a URI is the address of

`resolveUri` reads off a URI its canonical form, its scope and the user it
belongs to; `contextTypeForUri` the kind of content stored there.  Records
carry these beside their URI, so whoever changes the URI recomputes them. -/

namespace OpenViking.Query

open OpenViking.Lib

/-- `VikingURI.VISITABLE_SCOPES` -/
def visitableScopes : List Str :=
  ["resources".toList, "user".toList, "agent".toList, "session".toList, "temp".toList,
    "queue".toList, "upload".toList, "~".toList]

/-- The check of `VikingURI(uri)` -/
def checkVikingUri (uri : Str) : Except String Unit :=
  if scheme <+: uri then
    let path := uri.drop scheme.length
    let scope := path.takeWhile (· ≠ '/')
    if stripBy (· == '/') path = [] then .ok ()
    else if scope ∈ visitableScopes then .ok ()
    else .error ("Invalid scope '" ++ text scope ++
      "'. Must be one of: agent, queue, resources, session, temp, upload, user")
  else .error notAUri

/-- `ResolvedNamespace` -/
structure ResolvedNamespace where
  uri : Str
  scope : Str
  ownerUserId : Option Str
  isContainer : Bool

/-- `_require_peer_id_segment` -/
def requirePeerIdSegment (peerId : Str) : Except String Unit :=
  let normalized := strip peerId
  if normalized = [] then .error "peer_id must not be empty"
  else
    match validateIdentifierPart normalized "peer_id" with
    | some error => .error ("Invalid peer_id: " ++ error)
    | none => .ok ()

/-- `_resolve_user_uri`, on the parts after `user` -/
def resolveUserUri : List Str → Except String ResolvedNamespace
  | [] => .ok ⟨scheme ++ "user".toList, "user".toList, none, true⟩
  | userId :: suffix =>
      match validateUserId userId with
      | some error => .error ("Invalid user_id: " ++ error)
      | none => do
          match suffix with
          | peers :: peerId :: _ => if peers = "peers".toList then requirePeerIdSegment peerId
          | _ => pure ()
          return ⟨scheme ++ List.intercalate ['/'] ("user".toList :: userId :: suffix),
            "user".toList, some userId, false⟩

/-- `resolve_uri` -/
def resolveUri (uri : Str) : Except String ResolvedNamespace := do
  checkVikingUri uri
  let parts ← uriParts uri
  match parts with
  | [] => return ⟨scheme, [], none, true⟩
  | scope :: rest =>
      if scope = "user".toList then resolveUserUri rest
      else if scope = "~".toList then
        throw ("Home alias URI is not canonical: " ++ text (List.intercalate ['/'] parts))
      else if scope = "session".toList then
        throw ("Legacy session URI is not canonical: " ++ text (List.intercalate ['/'] parts))
      else return ⟨trimEnd '/' uri, scope, none, false⟩

/-- `owner_fields_for_uri(uri)["owner_user_id"]` -/
def ownerUserIdForUri (uri : Str) : Option Str :=
  match resolveUri uri with
  | .ok resolved => resolved.ownerUserId
  | .error _ => none

/-- `owner_space_for_uri` -/
def ownerSpaceForUri (uri : Str) : Except String Str := do
  let resolved ← resolveUri uri
  return if resolved.scope = "user".toList then resolved.ownerUserId.getD [] else []

/-- The kinds of content. -/
inductive ContextType
  | memory
  | resource
  | skill

/-- `_CONTENT_TYPES_BY_SCOPE`, the same for users and agents -/
def contentType (segment : Str) : Option ContextType :=
  if segment = "memories".toList then some .memory
  else if segment = "resources".toList then some .resource
  else if segment = "skills".toList then some .skill
  else none

/-- The content type at `_content_segment_index` -/
def contentTypeOfParts : List Str → ContextType
  | scope :: rest =>
      if scope = "agent".toList then
        match rest with
        | first :: second :: _ =>
            if first = "skills".toList then .skill else (contentType second).getD .resource
        | [first] => if first = "skills".toList then .skill else .resource
        | [] => .resource
      else if scope = "user".toList then
        match rest with
        | _ :: peers :: _ :: segment :: _ =>
            if peers = "peers".toList ∧
                (segment = "memories".toList ∨ segment = "resources".toList) then
              (contentType segment).getD .resource
            else (contentType peers).getD .resource
        | _ :: segment :: _ => (contentType segment).getD .resource
        | _ => .resource
      else .resource
  | [] => .resource

/-- `context_type_for_uri` -/
def contextTypeForUri (uri : Str) : Except String ContextType := do
  return contentTypeOfParts (← uriParts uri)

end OpenViking.Query
