-- SUMMARY: Looking a path up without regard to case, with a cache of the directories found; when the cache cannot be noticed.
import Mathlib

/-!
# Case-insensitive lookup on the host

`HostFsBackend::Resolve` tries a path as it is spelled. Where that does not exist it goes
through the components, takes each as it is spelled or else the first entry of the directory
that differs from it only in case, and keeps what it found in a cache. The key of the cache
is the path so far in lower case, the value the spelling that was found first.
-/

namespace FileSys

/-- The bytes of a name or a path. -/
abbrev Name := List UInt8

abbrev slash : UInt8 := 47

abbrev dot : UInt8 := 46

/-- A path of the host by its components, from the root of the host. -/
abbrev HostPath := List Name

/-- `tolower` in the locale of the program's start. -/
def lowerByte (c : UInt8) : UInt8 := if 65 ≤ c && c ≤ 90 then c + 32 else c

/-- `Common::ToLower`. -/
def toLowerName (s : Name) : Name := s.map lowerByte

/-! ## The host -/

/-- A file or a directory, whose entries are in the order in which they are iterated. -/
inductive HostNode where
  | file
  | dir (entries : List (Name × HostNode))

/-- A component of a path, seen from a directory below the directories it is in. -/
def HostNode.enter : List HostNode → Name → Option (List HostNode)
  | .dir entries :: up, part =>
    if part = [] ∨ part = [dot] then some (.dir entries :: up)
    else if part = [dot, dot] then some (if up = [] then [.dir entries] else up)
    else (entries.lookup part).map (· :: .dir entries :: up)
  | _, _ => none

def HostNode.walk (host : HostNode) (path : HostPath) : Option (List HostNode) :=
  path.foldlM HostNode.enter [host]

/-- `std::filesystem::exists`. -/
def HostNode.exists (host : HostNode) (path : HostPath) : Bool := (host.walk path).isSome

/-- The names that a `directory_iterator` goes through; none if the path is not a directory. -/
def HostNode.names (host : HostNode) (path : HostPath) : List Name :=
  match host.walk path with
  | some (.dir entries :: _) => entries.map Prod.fst
  | _ => []

/-- `operator/` of paths: the root replaces everything before it. -/
def joinPath (path : HostPath) (part : Name) : HostPath := if part = [slash] then [] else path ++ [part]

/-- The components of a path as it is iterated. Those that are empty are skipped by the loop. -/
def pathParts (relPath : Name) : List Name :=
  if relPath.head? = some slash then [slash] :: relPath.splitOn slash else relPath.splitOn slash

/-! ## Resolve -/

/-- `m_case_cache`. -/
abbrev CaseCache := List (Name × HostPath)

/-- `emplace` leaves a key that is there alone. -/
def CaseCache.emplace (cache : CaseCache) (key : Name) (path : HostPath) : CaseCache :=
  if (cache.lookup key).isSome then cache else cache ++ [(key, path)]

def keyStep (key part : Name) : Name := (if key = [] then key else key ++ [slash]) ++ toLowerName part

def resolveLoop (host : HostNode) : List Name → HostPath → Name → CaseCache →
    Option HostPath × CaseCache
  | [], current, _, cache => (some current, cache)
  | part :: parts, current, key, cache =>
    if part = [] ∨ part = [dot] then resolveLoop host parts current key cache
    else
      let key := keyStep key part
      match cache.lookup key with
      | some cached => resolveLoop host parts cached key cache
      | none =>
        let candidate := joinPath current part
        if host.exists candidate then
          resolveLoop host parts candidate key (cache.emplace key candidate)
        else
          match (host.names current).find? fun name => toLowerName name = toLowerName part with
          | some name =>
            resolveLoop host parts (joinPath current name) key
              (cache.emplace key (joinPath current name))
          | none => (none, cache)

def resolveCaseInsensitive (host : HostNode) (root : HostPath) (cache : CaseCache) (relPath : Name) :
    Option HostPath × CaseCache :=
  resolveLoop host (pathParts relPath) root [] cache

/-- The path as it is spelled. -/
def directPath (root : HostPath) (relPath : Name) : HostPath := (pathParts relPath).foldl joinPath root

def resolve (host : HostNode) (root : HostPath) (cache : CaseCache) (relPath : Name) :
    HostPath × CaseCache :=
  if relPath = [] then (root, cache)
  else
    let direct := directPath root relPath
    if host.exists direct then (direct, cache)
    else
      let (found, cache) := resolveCaseInsensitive host root cache relPath
      (found.getD direct, cache)

/-- The results of calls that share the cache. -/
def resolveAll (host : HostNode) (root : HostPath) : CaseCache → List Name → List HostPath
  | _, [] => []
  | cache, relPath :: calls =>
    let (path, cache) := resolve host root cache relPath
    path :: resolveAll host root cache calls

/-! ## The search without a cache -/

/-- One component: as it is spelled, or else the first entry that differs only in case. -/
def searchStep (host : HostNode) (current : HostPath) (part : Name) : Option HostPath :=
  if host.exists (joinPath current part) then some (joinPath current part)
  else ((host.names current).find? fun name => toLowerName name = toLowerName part).map
    (joinPath current)

/-- The components that are looked up. -/
def searchParts (relPath : Name) : List Name :=
  (pathParts relPath).filter fun part => part ≠ [] ∧ part ≠ [dot]

def search (host : HostNode) (root : HostPath) (parts : List Name) : Option HostPath :=
  parts.foldlM (searchStep host) root

variable {host : HostNode} {root current path : HostPath} {parts before : List Name}
  {part key relPath : Name} {cache : CaseCache}

theorem search_append (parts after : List Name) :
    search host root (parts ++ after) = (search host root parts).bind fun p => search host p after :=
  List.foldlM_append

theorem search_concat (parts : List Name) (part : Name) :
    search host root (parts ++ [part]) = (search host root parts).bind fun p => searchStep host p part := by
  rw [search_append]
  congr 1
  funext p
  simp [search]

/-! ## Keys -/

def keyOf (parts : List Name) : Name := parts.foldl keyStep []

/-- The components of a key, in lower case. An absolute path has two slashes behind its root. -/
def keyParts (key : Name) : List Name :=
  if key = [] then []
  else if key.head? = some slash then [slash] :: (key.splitOn slash).drop 2
  else key.splitOn slash

/-- Components that are looked up behind the root. -/
def Names (parts : List Name) : Prop := ∀ part ∈ parts, part ≠ [] ∧ slash ∉ part

/-- Lowering a letter gives a letter. -/
theorem lowerByte_cases (c : UInt8) :
    lowerByte c = c ∨ (65 ≤ c.toNat ∧ c.toNat ≤ 90 ∧ (lowerByte c).toNat = c.toNat + 32) := by
  unfold lowerByte
  split
  · next h =>
    simp only [Bool.and_eq_true, decide_eq_true_eq, UInt8.le_iff_toNat_le] at h
    have hlow : 65 ≤ c.toNat := h.1
    have hhigh : c.toNat ≤ 90 := h.2
    have hsum : (c + 32).toNat = (c.toNat + 32) % 2 ^ 8 := UInt8.toNat_add c 32
    exact .inr ⟨hlow, hhigh, by omega⟩
  · exact .inl rfl

/-- A byte below the letters is nothing in lower case but itself. -/
theorem lowerByte_eq_iff {b : UInt8} (hb : b.toNat < 65) (c : UInt8) : lowerByte c = b ↔ c = b := by
  rcases lowerByte_cases c with heq | ⟨hlow, hhigh, hsum⟩
  · rw [heq]
  · refine iff_of_false (fun h => ?_) (fun h => ?_)
    · rw [h] at hsum
      omega
    · rw [h] at hlow
      omega

theorem lowerByte_eq_slash (c : UInt8) : lowerByte c = slash ↔ c = slash :=
  lowerByte_eq_iff (by decide) c

theorem toLowerName_name (h : part ≠ [] ∧ slash ∉ part) :
    toLowerName part ≠ [] ∧ slash ∉ toLowerName part := by
  refine ⟨by simpa [toLowerName] using h.1, fun hmem => ?_⟩
  obtain ⟨c, hc, heq⟩ := List.mem_map.1 hmem
  exact h.2 ((lowerByte_eq_slash c).1 heq ▸ hc)

theorem foldl_keyStep (hkey : key ≠ []) :
    parts.foldl keyStep key = key ++ (parts.map toLowerName).flatMap (slash :: ·) := by
  induction parts generalizing key with
  | nil => simp
  | cons part parts ih =>
    have hstep : keyStep key part = key ++ slash :: toLowerName part := by
      rw [keyStep, if_neg hkey]
      simp
    rw [List.foldl_cons, hstep, ih (by simp)]
    simp

theorem intercalate_slash (first : Name) (rest : List Name) :
    [slash].intercalate (first :: rest) = first ++ rest.flatMap (slash :: ·) := by
  induction rest generalizing first with
  | nil => simp [List.intercalate]
  | cons part rest ih =>
    have hcons : [slash].intercalate (first :: part :: rest)
        = first ++ slash :: [slash].intercalate (part :: rest) := by
      simp [List.intercalate, List.intersperse]
    rw [hcons, ih]
    rfl

/-- The slash never stands in a name, so a key tells its components. -/
theorem keyParts_names (h : Names parts) : keyParts (keyOf parts) = parts.map toLowerName := by
  cases parts with
  | nil => rfl
  | cons part parts =>
    have hlower : ∀ p ∈ (part :: parts).map toLowerName, p ≠ [] ∧ slash ∉ p := by
      intro p hp
      obtain ⟨q, hq, rfl⟩ := List.mem_map.1 hp
      exact toLowerName_name (h q hq)
    rw [List.map_cons] at hlower
    obtain ⟨hne, hslash⟩ := hlower _ (.head _)
    have hkey : keyOf (part :: parts)
        = [slash].intercalate (toLowerName part :: parts.map toLowerName) := by
      have hfirst : keyStep [] part = toLowerName part := by
        rw [keyStep, if_pos rfl]
        rfl
      rw [intercalate_slash, keyOf, List.foldl_cons, hfirst, foldl_keyStep hne]
    have hhead : (keyOf (part :: parts)).head? ≠ some slash := by
      rw [hkey, intercalate_slash]
      cases hp : toLowerName part with
      | nil => exact absurd hp hne
      | cons c p =>
        rw [hp] at hslash
        intro heq
        obtain rfl : c = slash := by simpa using heq
        exact hslash (.head _)
    have hnonempty : keyOf (part :: parts) ≠ [] := by
      rw [hkey, intercalate_slash]
      simp [hne]
    rw [keyParts, if_neg hnonempty, if_neg hhead, hkey,
      List.splitOn_intercalate slash (fun p hp => (hlower p hp).2) (by simp)]
    rfl

theorem keyParts_absolute (h : Names parts) :
    keyParts (keyOf ([slash] :: parts)) = ([slash] :: parts).map toLowerName := by
  have hroot : toLowerName [slash] = [slash] := by decide
  have hkey : keyOf ([slash] :: parts)
      = [slash].intercalate ([] :: [] :: parts.map toLowerName) := by
    have hfirst : keyStep [] [slash] = [slash] := by decide
    rw [intercalate_slash, keyOf, List.foldl_cons, hfirst, foldl_keyStep (by simp)]
    simp
  have hsplit : (keyOf ([slash] :: parts)).splitOn slash = [] :: [] :: parts.map toLowerName := by
    rw [hkey]
    refine List.splitOn_intercalate slash (fun p hp => ?_) (by simp)
    rcases List.mem_cons.1 hp with rfl | hp
    · simp
    rcases List.mem_cons.1 hp with rfl | hp
    · simp
    · obtain ⟨q, hq, rfl⟩ := List.mem_map.1 hp
      exact (toLowerName_name (h q hq)).2
  have hhead : (keyOf ([slash] :: parts)).head? = some slash := by
    rw [hkey, intercalate_slash]
    rfl
  have hnonempty : keyOf ([slash] :: parts) ≠ [] := by
    rw [hkey, intercalate_slash]
    simp
  rw [keyParts, if_neg hnonempty, if_pos hhead, hsplit, List.map_cons, hroot]
  rfl

theorem notMem_of_mem_splitOn {c : UInt8} {s : Name} (h : part ∈ s.splitOn c) : c ∉ part := by
  induction s generalizing part with
  | nil =>
    rw [List.splitOn_nil, List.mem_singleton] at h
    rw [h]
    simp
  | cons b s ih =>
    rw [List.splitOn_cons_eq_if_modifyHead] at h
    obtain ⟨first, rest, hs⟩ := List.exists_cons_of_ne_nil (List.splitOn_ne_nil c s)
    rw [hs] at ih h
    split at h
    · rcases List.mem_cons.1 h with rfl | h
      · simp
      · exact ih h
    rename_i hne
    rcases List.mem_cons.1 h with rfl | h
    · have hb : b ≠ c := by simpa using hne
      simpa [hb.symm] using ih (.head _)
    · exact ih (.tail _ h)

/-- What the loop looks up: names, with the root in front if the path is absolute. -/
theorem searchParts_cases (relPath : Name) :
    Names (searchParts relPath) ∨ ∃ parts, searchParts relPath = [slash] :: parts ∧ Names parts := by
  have hsplit : Names ((relPath.splitOn slash).filter fun part => part ≠ [] ∧ part ≠ [dot]) := by
    intro part hpart
    obtain ⟨hmem, hne⟩ := List.mem_filter.1 hpart
    exact ⟨(of_decide_eq_true hne).1, notMem_of_mem_splitOn hmem⟩
  unfold searchParts pathParts
  split
  · exact .inr ⟨_, by rw [List.filter_cons_of_pos (by decide)], hsplit⟩
  · exact .inl hsplit

/-- A key tells the components up to their case, also for the first ones of a path. -/
theorem keyParts_take (relPath : Name) (n : Nat) :
    keyParts (keyOf ((searchParts relPath).take n)) = ((searchParts relPath).take n).map toLowerName := by
  rcases searchParts_cases relPath with h | ⟨parts, hparts, h⟩
  · exact keyParts_names fun part hpart => h part (List.mem_of_mem_take hpart)
  · rw [hparts]
    cases n with
    | zero => rfl
    | succ n => exact keyParts_absolute fun part hpart => h part (List.mem_of_mem_take hpart)

/-! ## The cache -/

/-- As far as two paths agree up to case, the search chooses the same spelling for both. -/
def SameSearch (host : HostNode) (root : HostPath) (relPath relPath' : Name) : Prop :=
  ∀ n, ((searchParts relPath).take n).map toLowerName = ((searchParts relPath').take n).map toLowerName →
    search host root ((searchParts relPath).take n) = search host root ((searchParts relPath').take n)

/-- The cache holds what the search finds for the first components of certain paths. -/
def CacheOf (host : HostNode) (root : HostPath) (paths : List Name) (cache : CaseCache) : Prop :=
  ∀ key path, cache.lookup key = some path → ∃ relPath ∈ paths, ∃ n ≤ (searchParts relPath).length,
    key = keyOf ((searchParts relPath).take n) ∧
      search host root ((searchParts relPath).take n) = some path

theorem CacheOf.mono {paths paths' : List Name} (h : CacheOf host root paths cache)
    (hsub : ∀ r ∈ paths, r ∈ paths') : CacheOf host root paths' cache := by
  intro key path hlookup
  obtain ⟨relPath, hmem, hrest⟩ := h key path hlookup
  exact ⟨relPath, hsub relPath hmem, hrest⟩

theorem CacheOf.emplace {paths : List Name} {n : Nat} (h : CacheOf host root paths cache)
    (hmem : relPath ∈ paths) (hn : n ≤ (searchParts relPath).length)
    (hsearch : search host root ((searchParts relPath).take n) = some path) :
    CacheOf host root paths (cache.emplace (keyOf ((searchParts relPath).take n)) path) := by
  unfold CaseCache.emplace
  split
  · exact h
  intro key path' hlookup
  rw [List.lookup_append] at hlookup
  cases hold : cache.lookup key with
  | some old =>
    rw [hold] at hlookup
    obtain rfl := Option.some.inj hlookup
    exact h key old hold
  | none =>
    rw [hold, Option.none_or, List.lookup_cons, List.lookup_nil] at hlookup
    split at hlookup
    · next hkey =>
      cases hlookup
      exact ⟨relPath, hmem, n, hn, by simpa using hkey, hsearch⟩
    · cases hlookup

/-- What the cache holds for the key of the first components is what the search finds for them. -/
theorem CacheOf.lookup {paths : List Name} {n : Nat} (h : CacheOf host root paths cache)
    (hsame : ∀ r ∈ paths, SameSearch host root r relPath) (hn : n ≤ (searchParts relPath).length)
    (hlookup : cache.lookup (keyOf ((searchParts relPath).take n)) = some path) :
    search host root ((searchParts relPath).take n) = some path := by
  obtain ⟨r, hmem, k, hk, hkey, hsearch⟩ := h _ _ hlookup
  have hlower := congrArg keyParts hkey
  rw [keyParts_take, keyParts_take] at hlower
  have hlen := congrArg List.length hlower
  simp only [List.length_map, List.length_take] at hlen
  have heq : k = n := by omega
  rw [heq] at hlower hsearch
  rw [← hsame r hmem n hlower.symm, hsearch]

/-- Empty components and single dots are passed over. -/
theorem resolveLoop_filter (raw : List Name) (current : HostPath) (key : Name) (cache : CaseCache) :
    resolveLoop host raw current key cache
      = resolveLoop host (raw.filter fun part => part ≠ [] ∧ part ≠ [dot]) current key cache := by
  induction raw generalizing current key cache with
  | nil => rfl
  | cons part raw ih =>
    by_cases hskip : part = [] ∨ part = [dot]
    · rw [List.filter_cons_of_neg (by simpa using fun h => hskip.resolve_left h), resolveLoop,
        if_pos hskip, ih]
    rw [List.filter_cons_of_pos (by simpa using not_or.1 hskip), resolveLoop, resolveLoop,
      if_neg hskip, if_neg hskip]
    simp only [ih]

/-- With a cache of paths whose searches agree, the loop finds what the search finds. -/
theorem resolveLoop_eq {paths : List Name} (hmem : relPath ∈ paths)
    (hsame : ∀ r ∈ paths, SameSearch host root r relPath) {n : Nat}
    (hn : n ≤ (searchParts relPath).length)
    (hcurrent : search host root ((searchParts relPath).take n) = some current)
    (h : CacheOf host root paths cache) :
    ∃ cache', resolveLoop host ((searchParts relPath).drop n) current
        (keyOf ((searchParts relPath).take n)) cache = (search host root (searchParts relPath), cache') ∧
      CacheOf host root paths cache' := by
  induction hleft : (searchParts relPath).drop n generalizing n current cache with
  | nil =>
    have hall : (searchParts relPath).take n = searchParts relPath :=
      List.take_of_length_le (List.drop_eq_nil_iff.1 hleft)
    rw [hall] at hcurrent
    exact ⟨cache, by rw [resolveLoop, hcurrent], h⟩
  | cons part parts ih =>
    have hlt : n < (searchParts relPath).length := by
      by_contra hge
      rw [List.drop_eq_nil_of_le (by omega)] at hleft
      cases hleft
    have hpart : (searchParts relPath).take (n + 1) = (searchParts relPath).take n ++ [part] := by
      rw [List.take_add, hleft]
      rfl
    have hkey : keyStep (keyOf ((searchParts relPath).take n)) part
        = keyOf ((searchParts relPath).take (n + 1)) := by
      rw [hpart, keyOf, keyOf, List.foldl_append]
      rfl
    have hrest : (searchParts relPath).drop (n + 1) = parts := by
      rw [← List.drop_drop, hleft]
      rfl
    have hstep : search host root ((searchParts relPath).take (n + 1)) = searchStep host current part := by
      rw [hpart, search_concat, hcurrent, Option.bind_some]
    have hlooked : ¬(part = [] ∨ part = [dot]) := by
      have hin : part ∈ searchParts relPath :=
        List.mem_of_mem_drop (hleft ▸ List.mem_cons_self : part ∈ (searchParts relPath).drop n)
      have hkept := (List.mem_filter.1 hin).2
      simpa using hkept
    rw [resolveLoop, if_neg hlooked, hkey]
    dsimp only
    cases hlookup : cache.lookup (keyOf ((searchParts relPath).take (n + 1))) with
    | some cached => exact ih hlt (h.lookup hsame hlt hlookup) h hrest
    | none =>
      dsimp only
      by_cases hexists : host.exists (joinPath current part) = true
      · have hnext : searchStep host current part = some (joinPath current part) := if_pos hexists
        rw [if_pos hexists]
        exact ih hlt (hstep.trans hnext) (h.emplace hmem hlt (hstep.trans hnext)) hrest
      rw [if_neg hexists]
      cases hfind : (host.names current).find? fun name => toLowerName name = toLowerName part with
      | some name =>
        have hnext : searchStep host current part = some (joinPath current name) := by
          rw [searchStep, if_neg hexists, hfind]
          rfl
        exact ih hlt (hstep.trans hnext) (h.emplace hmem hlt (hstep.trans hnext)) hrest
      | none =>
        have hnone : searchStep host current part = none := by
          rw [searchStep, if_neg hexists, hfind]
          rfl
        refine ⟨cache, ?_, h⟩
        have hsplit : searchParts relPath = (searchParts relPath).take (n + 1) ++ parts := by
          rw [← hrest, List.take_append_drop]
        rw [hsplit, search_append, hstep, hnone]
        rfl

/-! ## Calls -/

/-- The path does not exist as it is spelled, so it is searched for. -/
def Searched (host : HostNode) (root : HostPath) (relPath : Name) : Prop :=
  relPath ≠ [] ∧ host.exists (directPath root relPath) = false

theorem resolve_found (h : ¬Searched host root relPath) (cache : CaseCache) :
    resolve host root cache relPath =
      (if relPath = [] then root else directPath root relPath, cache) := by
  unfold resolve
  by_cases hempty : relPath = []
  · rw [if_pos hempty, if_pos hempty]
  have hexists : host.exists (directPath root relPath) = true := by
    by_contra hnot
    exact h ⟨hempty, by simpa using hnot⟩
  rw [if_neg hempty, if_neg hempty]
  exact if_pos hexists

theorem resolve_searched (paths : List Name) (h : Searched host root relPath)
    (hmem : relPath ∈ paths) (hsame : ∀ r ∈ paths, SameSearch host root r relPath)
    (hcache : CacheOf host root paths cache) :
    ∃ cache', resolve host root cache relPath
        = ((search host root (searchParts relPath)).getD (directPath root relPath), cache') ∧
      CacheOf host root paths cache' := by
  obtain ⟨cache', hloop, hcache'⟩ := resolveLoop_eq hmem hsame (Nat.zero_le _) rfl hcache
  have hresolve : resolveCaseInsensitive host root cache relPath
      = (search host root (searchParts relPath), cache') :=
    (resolveLoop_filter (pathParts relPath) root [] cache).trans hloop
  refine ⟨cache', ?_, hcache'⟩
  unfold resolve
  dsimp only
  rw [if_neg h.1, if_neg (by simp [h.2]), hresolve]

theorem cacheOf_nil (paths : List Name) : CacheOf host root paths [] := by
  intro key path h
  cases h

/-- What a call returns without a cache. -/
theorem resolve_empty (h : Searched host root relPath) :
    (resolve host root [] relPath).1
      = (search host root (searchParts relPath)).getD (directPath root relPath) := by
  obtain ⟨cache', hresolve, -⟩ := resolve_searched [relPath] h (List.mem_singleton_self relPath)
    (fun r hr => by rw [List.mem_singleton.1 hr]; exact fun n _ => rfl) (cacheOf_nil [relPath])
  rw [hresolve]

theorem resolveAll_eq (paths : List Name) {calls : List Name}
    (hsame : ∀ r ∈ paths ++ calls, ∀ r' ∈ calls, Searched host root r → Searched host root r' →
      SameSearch host root r r')
    (hpaths : ∀ r ∈ paths, Searched host root r) (hcache : CacheOf host root paths cache) :
    resolveAll host root cache calls = calls.map fun r => (resolve host root [] r).1 := by
  induction calls generalizing paths cache with
  | nil => rfl
  | cons r calls ih =>
    unfold resolveAll
    by_cases hr : Searched host root r
    · have hall : ∀ r' ∈ paths ++ [r], Searched host root r' := by
        intro r' hr'
        rcases List.mem_append.1 hr' with hr' | hr'
        · exact hpaths r' hr'
        · rwa [List.mem_singleton.1 hr']
      have hsub (r' : Name) (hr' : r' ∈ paths ++ [r]) : r' ∈ paths ++ r :: calls := by
        rcases List.mem_append.1 hr' with hr' | hr'
        · exact List.mem_append_left _ hr'
        · rw [List.mem_singleton.1 hr']
          simp
      obtain ⟨cache', hresolve, hcache'⟩ := resolve_searched (paths ++ [r]) hr (by simp)
        (fun r' hr' => hsame r' (hsub r' hr') r (.head _) (hall r' hr') hr)
        (hcache.mono fun r' hr' => List.mem_append_left _ hr')
      have hrest := ih (paths ++ [r])
        (fun r₁ h₁ r₂ h₂ => hsame r₁ (by simpa using h₁) r₂ (.tail _ h₂)) hall hcache'
      rw [hresolve, List.map_cons, resolve_empty hr]
      exact congrArg _ hrest
    · have hrest := ih paths (fun r₁ h₁ r₂ h₂ => hsame r₁ (by
        rcases List.mem_append.1 h₁ with h₁ | h₁
        · exact List.mem_append_left _ h₁
        · exact List.mem_append_right _ (.tail _ h₁)) r₂ (.tail _ h₂)) hpaths hcache
      rw [resolve_found hr, List.map_cons, resolve_found hr]
      exact congrArg _ hrest

/-! ## Existing paths -/

theorem HostNode.walk_concat (host : HostNode) (path : HostPath) (part : Name) :
    host.walk (path ++ [part]) = (host.walk path).bind fun at_ => enter at_ part := by
  unfold walk
  rw [List.foldlM_append]
  congr 1
  funext at_
  simp

/-- A component that exists is an entry, or it stays or goes up. -/
theorem HostNode.mem_names_of_exists (h : host.exists (current ++ [part]) = true) :
    part ∈ host.names current ∨ part = [] ∨ part = [dot] ∨ part = [dot, dot] := by
  unfold HostNode.exists at h
  rw [walk_concat] at h
  unfold names
  cases hat : host.walk current with
  | none =>
    rw [hat] at h
    cases h
  | some stack =>
    rw [hat, Option.bind_some] at h
    cases stack with
    | nil => cases h
    | cons node up =>
      cases node with
      | file => cases h
      | dir entries =>
        unfold enter at h
        dsimp only at h ⊢
        split at h
        · next hstay => exact .inr (hstay.imp_right .inl)
        split at h
        · next hup => exact .inr (.inr (.inr hup))
        rw [Option.isSome_map, List.lookup_isSome_iff] at h
        obtain ⟨entry, hentry, hname⟩ := h
        exact .inl (List.mem_map.2 ⟨entry, hentry, (by simpa using hname : part = entry.1).symm⟩)

/-! ## Trees without twins -/

/-- No directory has two names that differ only in case. -/
def NoCaseTwins (host : HostNode) : Prop :=
  ∀ path, ∀ name ∈ host.names path, ∀ name' ∈ host.names path,
    toLowerName name = toLowerName name' → name = name'

/-- What holds of the host and of the entries of each directory it holds of holds wherever a path
leads. -/
theorem HostNode.walk_induct {P : HostNode → Prop} (hhost : P host)
    (hentry : ∀ entries, P (.dir entries) → ∀ entry ∈ entries, P entry.2) {stack : List HostNode}
    (h : host.walk path = some stack) : ∀ node ∈ stack, P node := by
  induction path using List.reverseRecOn generalizing stack with
  | nil =>
    cases h
    simpa using hhost
  | append_singleton path part ih =>
    rw [walk_concat] at h
    obtain ⟨before, hbefore, henter⟩ := Option.bind_eq_some_iff.1 h
    have hP := ih hbefore
    unfold enter at henter
    split at henter
    · next entries up =>
      split at henter
      · cases henter
        exact hP
      split at henter
      · cases henter
        intro node hnode
        split at hnode
        · exact hP node (List.mem_singleton.1 hnode ▸ .head _)
        · exact hP node (.tail _ hnode)
      · obtain ⟨next, hnext, rfl⟩ := Option.map_eq_some_iff.1 henter
        obtain ⟨_, _, hentries, -⟩ := List.lookup_eq_some_iff.1 hnext
        intro node hnode
        rcases List.mem_cons.1 hnode with rfl | hnode
        · exact hentry entries (hP _ (.head _)) _ (hentries ▸ List.mem_append_right _ (.head _))
        · exact hP node hnode
    · cases henter

theorem NoCaseTwins.of_entries {P : HostNode → Prop} (hhost : P host)
    (hentry : ∀ entries, P (.dir entries) → ∀ entry ∈ entries, P entry.2)
    (hnames : ∀ entries, P (.dir entries) → ∀ a ∈ entries.map Prod.fst, ∀ b ∈ entries.map Prod.fst,
      toLowerName a = toLowerName b → a = b) : NoCaseTwins host := by
  intro path
  unfold HostNode.names
  split
  · next entries up hwalk =>
    exact hnames entries (HostNode.walk_induct hhost hentry hwalk _ (.head _))
  · simp

/-- A name without letters is spelled in one way. -/
theorem toLowerName_eq_iff {name : Name} (h : ∀ b ∈ name, b.toNat < 65) (part : Name) :
    toLowerName part = name ↔ part = name := by
  induction name generalizing part with
  | nil => simp [toLowerName]
  | cons b name ih =>
    cases part with
    | nil => simp [toLowerName]
    | cons c part =>
      have hrest := ih (fun b' hb' => h b' (.tail _ hb')) part
      unfold toLowerName at hrest
      rw [toLowerName, List.map_cons, List.cons.injEq, List.cons.injEq, hrest,
        lowerByte_eq_iff (h b (.head _))]

/-- A component that exists as it is spelled is an entry, or spelled in one way. -/
theorem mem_names_or_spelled (h : host.exists (joinPath current part) = true) :
    part ∈ host.names current ∨ ∀ part', toLowerName part' = toLowerName part → part' = part := by
  have hspelled {name : Name} (hname : ∀ b ∈ name, b.toNat < 65) (part' : Name)
      (hlower : toLowerName part' = toLowerName name) : part' = name := by
    rwa [(toLowerName_eq_iff hname name).2 rfl, toLowerName_eq_iff hname] at hlower
  by_cases hslash : part = [slash]
  · exact .inr (hslash ▸ hspelled (by simp [slash]))
  rw [joinPath, if_neg hslash] at h
  rcases HostNode.mem_names_of_exists h with hmem | rfl | rfl | rfl
  · exact .inl hmem
  · exact .inr (hspelled (by simp))
  · exact .inr (hspelled (by simp [dot]))
  · exact .inr (hspelled (by simp [dot]))

/-- Without twins a step depends on the component up to case only. -/
theorem NoCaseTwins.searchStep_eq (h : NoCaseTwins host) {part' : Name}
    (hlower : toLowerName part = toLowerName part') :
    searchStep host current part = searchStep host current part' := by
  have hother {part part' : Name} (hlower : toLowerName part' = toLowerName part)
      (hexists : host.exists (joinPath current part) = true)
      (hmissing : ¬host.exists (joinPath current part') = true) :
      searchStep host current part = searchStep host current part' := by
    rcases mem_names_or_spelled hexists with hmem | hspelled
    · have hfind : (host.names current).find? (fun name => toLowerName name = toLowerName part')
          = some part := by
        cases hfound : (host.names current).find? fun name => toLowerName name = toLowerName part' with
        | none =>
          have hnot := List.find?_eq_none.1 hfound part hmem
          exact absurd hlower.symm (by simpa using hnot)
        | some name =>
          have hname : toLowerName name = toLowerName part' := by
            simpa using List.find?_some hfound
          rw [h current name (List.mem_of_find?_eq_some hfound) part hmem (hname.trans hlower)]
      rw [searchStep, if_pos hexists, searchStep, if_neg hmissing, hfind]
      rfl
    · rw [hspelled part' hlower]
  by_cases hexists : host.exists (joinPath current part) = true
  · by_cases hexists' : host.exists (joinPath current part') = true
    · rcases mem_names_or_spelled hexists with hmem | hspelled
      · rcases mem_names_or_spelled hexists' with hmem' | hspelled
        · rw [h current part hmem part' hmem' hlower]
        · rw [hspelled part hlower]
      · rw [hspelled part' hlower.symm]
    · exact hother hlower.symm hexists hexists'
  · by_cases hexists' : host.exists (joinPath current part') = true
    · exact (hother hlower hexists' hexists).symm
    · rw [searchStep, if_neg hexists, searchStep, if_neg hexists', hlower]

/-- Without twins the search chooses the same path for all spellings. -/
theorem NoCaseTwins.search_eq (h : NoCaseTwins host) {parts' : List Name}
    (hlower : parts.map toLowerName = parts'.map toLowerName) :
    search host root parts = search host root parts' := by
  induction parts generalizing root parts' with
  | nil =>
    cases parts' with
    | nil => rfl
    | cons part' parts' => cases hlower
  | cons part parts ih =>
    cases parts' with
    | nil => cases hlower
    | cons part' parts' =>
      rw [List.map_cons, List.map_cons, List.cons.injEq] at hlower
      rw [search, search, List.foldlM_cons, List.foldlM_cons, h.searchStep_eq hlower.1]
      congr 1
      funext p
      exact ih hlower.2

theorem NoCaseTwins.sameSearch (h : NoCaseTwins host) (relPath relPath' : Name) :
    SameSearch host root relPath relPath' :=
  fun _ hlower => h.search_eq hlower

/-! ## The cache cannot be noticed -/

/-- With an empty cache a path is found whenever the search finds one. -/
theorem exists_resolve_empty (hsearch : search host root (searchParts relPath) = some path)
    (hexists : host.exists path = true) : host.exists (resolve host root [] relPath).1 = true := by
  by_cases hr : Searched host root relPath
  · rw [resolve_empty hr, hsearch]
    exact hexists
  rw [resolve_found hr]
  by_cases hempty : relPath = []
  · rw [hempty] at hsearch
    cases hsearch
    rwa [if_pos hempty]
  rw [if_neg hempty]
  by_contra hmissing
  exact hr ⟨hempty, by simpa using hmissing⟩

/-- Where the searches of the paths agree as far as the paths do up to case, each call returns what
it returns with an empty cache, and a path that exists whenever the search finds one. -/
theorem resolveAll_transparent (host : HostNode) (root : HostPath) (calls : List Name)
    (h : ∀ r ∈ calls, ∀ r' ∈ calls, Searched host root r → Searched host root r' →
      SameSearch host root r r') :
    resolveAll host root [] calls = calls.map (fun r => (resolve host root [] r).1) ∧
      ∀ call ∈ calls.zip (resolveAll host root [] calls), ∀ found,
        search host root (searchParts call.1) = some found → host.exists found = true →
          host.exists call.2 = true := by
  have hall : resolveAll host root [] calls = calls.map fun r => (resolve host root [] r).1 :=
    resolveAll_eq [] (by simpa using h) (by simp) (cacheOf_nil [])
  refine ⟨hall, fun call hcall found hsearch hexists => ?_⟩
  rw [hall, ← List.map_prod_left_eq_zip] at hcall
  obtain ⟨r, -, rfl⟩ := List.mem_map.1 hcall
  exact exists_resolve_empty hsearch hexists

/-! ## Runs on two trees -/

/-- The directories `Data` and `Save` with a file `Bar` each. -/
def spread : HostNode :=
  .dir [([68, 97, 116, 97], .dir [([66, 97, 114], .file)]),
    ([83, 97, 118, 101], .dir [([66, 97, 114], .file)])]

theorem noCaseTwins_spread : NoCaseTwins spread := by
  let P (node : HostNode) : Prop := node = spread ∨ node = .dir [([66, 97, 114], .file)] ∨ node = .file
  refine NoCaseTwins.of_entries (P := P) (.inl rfl) ?_ ?_
  · rintro entries (heq | heq | heq)
    · obtain rfl := HostNode.dir.inj heq
      simp [P]
    · obtain rfl := HostNode.dir.inj heq
      simp [P]
    · cases heq
  · rintro entries (heq | heq | heq)
    · obtain rfl := HostNode.dir.inj heq
      decide
    · obtain rfl := HostNode.dir.inj heq
      decide
    · cases heq

/-- `data/bar`, `SAVE/Bar` and `Data/BAR`. -/
theorem resolveAll_spread :
    resolveAll spread [] [] [[100, 97, 116, 97, 47, 98, 97, 114], [83, 65, 86, 69, 47, 66, 97, 114],
        [68, 97, 116, 97, 47, 66, 65, 82]]
      = [[[68, 97, 116, 97], [66, 97, 114]], [[83, 97, 118, 101], [66, 97, 114]],
        [[68, 97, 116, 97], [66, 97, 114]]] := by
  refine (resolveAll_transparent spread [] _ fun r _ r' _ _ _ =>
    noCaseTwins_spread.sameSearch r r').1.trans ?_
  decide

/-- `Foo/Bar` and `foo/Baz`. -/
def twins : HostNode :=
  .dir [([70, 111, 111], .dir [([66, 97, 114], .file)]), ([102, 111, 111], .dir [([66, 97, 122], .file)])]

/-- `Foo/bar` leaves `Foo` in the cache, and `foo/baz` is then looked up there. -/
theorem resolveAll_twins :
    ¬(resolveAll twins [] [] [[70, 111, 111, 47, 98, 97, 114], [102, 111, 111, 47, 98, 97, 122]]
        = [[70, 111, 111, 47, 98, 97, 114], [102, 111, 111, 47, 98, 97, 122]].map fun r =>
          (resolve twins [] [] r).1) ∧
      search twins [] (searchParts [102, 111, 111, 47, 98, 97, 122])
        = some [[102, 111, 111], [66, 97, 122]] ∧
      twins.exists [[102, 111, 111], [66, 97, 122]] = true ∧
      (resolveAll twins [] [] [[70, 111, 111, 47, 98, 97, 114], [102, 111, 111, 47, 98, 97, 122]])[1]?
        = some [[102, 111, 111], [98, 97, 122]] ∧
      twins.exists [[102, 111, 111], [98, 97, 122]] = false := by
  decide

end FileSys
