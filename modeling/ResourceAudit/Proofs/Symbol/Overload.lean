import ResourceAudit.Proofs.Documentation.Brackets
import ResourceAudit.Proofs.Documentation.MemberName
import ResourceAudit.Proofs.Resource.Normal
import ResourceAudit.Proofs.Symbol.Declaration

/-!
# ResourceAudit.Proofs.Symbol.Overload

Methods of one name.  The ID of a method is its name with the names of its parameters,
those apart that take any number of arguments.  Two methods of a type with the same name
and the same number of type parameters therefore have one ID just if the names of their
other parameters agree (`overload_ids`), and where the numbers of these differ the
entries read from their documentation have different names.  Parameters that take any
number of arguments make no difference: such overloads share an ID, and of their entries
the second one is dropped.
-/

namespace ResourceAudit

open ResourceAudit.Text ResourceAudit.Xml CSharp Documentation

/-! ## methods -/

/-- Being among members, also in a branch of a conditional group. -/
inductive CSharp.Member.IsAmong (m : Member) : List Member → Prop
  | head (rest : List Member) : IsAmong m (m :: rest)
  | tail (other : Member) {rest : List Member} : IsAmong m rest → IsAmong m (other :: rest)
  | branch {members : List Member} (rest : List Member) :
    IsAmong m members → IsAmong m (.conditional members :: rest)

/-- The ID of a method in the given scope. -/
def methodId (s : Scope) (name : String) (arity : Nat) (parameters : List Parameter) : String :=
  "M:" ++ s.qualify (methodMetadataName name arity) ++ signature parameters

/-- What a method in the given scope stands for. -/
def methodSymbol (s : Scope) (lead : Lead) (name : String) (arity : Nat)
    (parameters : List Parameter) : MemberSymbol :=
  documented lead name .method lead.isStatic (methodId s name arity parameters)

/-- What a member stands for is found in the body of its type. -/
theorem mem_collectMembers {s : Scope} {m : Member} {ms : List Member} (h : m.IsAmong ms)
    {symbol : MemberSymbol} (hsymbol : symbol ∈ (collectMember s m).members) :
    symbol ∈ (collectMembers s ms).members := by
  induction h with
  | head rest => exact List.mem_append_left _ hsymbol
  | tail other _ ih => exact List.mem_append_right _ ih
  | branch rest _ ih => exact List.mem_append_left _ ih

/-! ## signatures -/

/-- The names of the parameters that count. -/
def countedNames (parameters : List Parameter) : List String :=
  (parameters.filter (!·.isVariadic)).map parameterName

/-- A signature is the list of the names that count. -/
theorem toList_signature (ps : List Parameter) :
    (signature ps).toList = enclosed '(' ')' ((countedNames ps).map String.toList) := by
  rw [signature, ← countedNames]
  cases h : countedNames ps with
  | nil => rfl
  | cons name names => simp [enclosed_cons]

theorem isClosed_parameterName {p : Parameter} (h : IsClosed p.type.toList) :
    IsClosed (parameterName p).toList := by
  have hmark : IsClosed (if p.isByRef then "@" else "").toList := by
    cases p.isByRef <;> decide
  rw [parameterName, String.toList_append]
  exact (isClosed_typeName h).append hmark

theorem isClosed_countedNames {ps : List Parameter} (h : ∀ p ∈ ps, IsClosed p.type.toList) :
    ∀ name ∈ (countedNames ps).map String.toList, IsClosed name := by
  rw [List.forall_mem_map, countedNames, List.forall_mem_map]
  exact fun p hp => isClosed_parameterName (h p (List.mem_filter.1 hp).1)

theorem enclosed_inj {opening closing : Char} {ss ts : List (List Char)}
    (hs : ∀ s ∈ ss, IsClosed s) (ht : ∀ t ∈ ts, IsClosed t)
    (h : enclosed opening closing ss = enclosed opening closing ts) : ss = ts := by
  cases ss with
  | nil =>
    cases ts with
    | nil => rfl
    | cons t ts => cases h
  | cons s ss =>
    cases ts with
    | nil => cases h
    | cons t ts =>
      rw [enclosed_cons, enclosed_cons, List.cons.injEq] at h
      exact intercalate_inj (List.cons_ne_nil _ _) (List.cons_ne_nil _ _) hs ht
        (List.append_cancel_right h.2)

/-- Signatures tell the lists of the names that count apart. -/
theorem signature_eq_iff {ps qs : List Parameter} (hps : ∀ p ∈ ps, IsClosed p.type.toList)
    (hqs : ∀ q ∈ qs, IsClosed q.type.toList) :
    signature ps = signature qs ↔ countedNames ps = countedNames qs := by
  constructor
  · intro h
    have hlists := congrArg String.toList h
    rw [toList_signature, toList_signature] at hlists
    exact (List.map_injective_iff.2 fun _ _ => String.toList_inj.1)
      (enclosed_inj (isClosed_countedNames hps) (isClosed_countedNames hqs) hlists)
  · intro h
    rw [← String.toList_inj, toList_signature, toList_signature, h]

theorem methodId_eq_iff (s : Scope) (name : String) (arity : Nat) {ps qs : List Parameter}
    (hps : ∀ p ∈ ps, IsClosed p.type.toList) (hqs : ∀ q ∈ qs, IsClosed q.type.toList) :
    methodId s name arity ps = methodId s name arity qs ↔ countedNames ps = countedNames qs := by
  rw [methodId, methodId, String.append_right_inj, signature_eq_iff hps hqs]

/-! ## names of entries -/

section Trimmed

variable {front : List Char} {ss ts : List (List Char)}

theorem trim_enclosed (hne : ss ≠ []) :
    trim ('M' :: front ++ enclosed '(' ')' ss) = 'M' :: front ++ enclosed '(' ')' ss := by
  obtain ⟨s, ss, rfl⟩ := List.exists_cons_of_ne_nil hne
  have htext : 'M' :: front ++ enclosed '(' ')' (s :: ss) =
      'M' :: (front ++ '(' :: List.intercalate [','] (s :: ss)) ++ [')'] := by
    simp [enclosed_cons]
  rw [htext, trim_eq_self (by decide) (by decide)]

/-- A parameter list is not lost with the white space at the ends of an ID. -/
theorem trim_enclosed_ne (hne : ss ≠ []) :
    trim ('M' :: front) ≠ trim ('M' :: front ++ enclosed '(' ')' ss) := by
  intro h
  have hpos : 0 < (enclosed '(' ')' ss).length := by
    obtain ⟨s, ss, rfl⟩ := List.exists_cons_of_ne_nil hne
    simp [enclosed_cons]
  have hlen := congrArg List.length h
  obtain ⟨a, b, -, -, hab⟩ := exists_trim ('M' :: front)
  have hfront := congrArg List.length hab
  rw [trim_enclosed hne] at hlen
  simp only [List.length_append] at hlen hfront
  omega

theorem enclosed_eq_of_trim (h : trim ('M' :: front ++ enclosed '(' ')' ss) =
    trim ('M' :: front ++ enclosed '(' ')' ts)) : enclosed '(' ')' ss = enclosed '(' ')' ts := by
  by_cases hss : ss = []
  · by_cases hts : ts = []
    · rw [hss, hts]
    · rw [hss, enclosed, List.append_nil] at h
      exact absurd h (trim_enclosed_ne hts)
  · by_cases hts : ts = []
    · rw [hts, enclosed, List.append_nil] at h
      exact absurd h.symm (trim_enclosed_ne hss)
    · rw [trim_enclosed hss, trim_enclosed hts] at h
      exact List.append_cancel_left h

end Trimmed

/-- The IDs of methods with one name stay apart without the white space at their ends. -/
theorem methodId_eq_of_trim {s : Scope} {name : String} {arity : Nat} {ps qs : List Parameter}
    (h : trim (methodId s name arity ps).toList = trim (methodId s name arity qs).toList) :
    methodId s name arity ps = methodId s name arity qs := by
  have hfront : ∀ ps, (methodId s name arity ps).toList =
      'M' :: (':' :: (s.qualify (methodMetadataName name arity)).toList) ++
        enclosed '(' ')' ((countedNames ps).map String.toList) := fun ps => by
    rw [methodId, String.toList_append, String.toList_append, toList_signature]
    rfl
  rw [hfront, hfront] at h
  rw [← String.toList_inj, hfront, hfront, enclosed_eq_of_trim h]

/-! ## tables -/

/-- Being taken by tables just if it would be taken without the other entry, wherever that
was offered before. -/
def Entry.IsIndependentOf (e other : Entry) : Prop :=
  ∀ before between, (Table.ofEntries (before ++ other :: between)).admits e =
    (Table.ofEntries (before ++ between)).admits e

theorem Table.admits_ofEntries (es : List Entry) (e : Entry) : (ofEntries es).admits e = true ↔
    e.isBlank = false ∧ ∀ x ∈ es, x.isBlank = false → x.name ≠ e.name := by
  have hname : e.name ∈ (ofEntries es).names ↔ ∃ x ∈ es, x.isBlank = false ∧ x.name = e.name := by
    rw [names, entries_ofEntries, keptEntries, mem_map_distinctBy]
    simp [and_assoc]
  rw [admits, Bool.and_eq_true, Bool.not_eq_true', Bool.not_eq_true', List.contains_eq_mem,
    decide_eq_false_iff_not, hname]
  push Not
  rfl

/-- Entries are independent just if they have different names. -/
theorem Entry.isIndependentOf_iff {e other : Entry} (he : e.isBlank = false)
    (hother : other.isBlank = false) : e.IsIndependentOf other ↔ other.name ≠ e.name := by
  constructor
  · intro h hname
    have htaken : (Table.ofEntries []).admits e = true := by simp [Table.admits_ofEntries, he]
    rw [← List.append_nil [], ← h [] [], Table.admits_ofEntries] at htaken
    exact htaken.2 other (by simp) hother hname
  · intro hname before between
    rw [Bool.eq_iff_iff, Table.admits_ofEntries, Table.admits_ofEntries]
    simp [or_imp, forall_and, hname]

/-! ## overloads -/

section Overloads

variable {lead lead' : Lead} {name : String} {arity : Nat} {ps qs : List Parameter}

/-- The entries of two methods are independent just if the IDs differ. -/
theorem isIndependentOf_iff_methodId {s : Scope} {e e' : Entry}
    (he : entryOfMarkup (methodSymbol s lead name arity ps).documentation = some e)
    (he' : entryOfMarkup (methodSymbol s lead' name arity qs).documentation = some e') :
    e.IsIndependentOf e' ↔ methodId s name arity ps ≠ methodId s name arity qs := by
  rw [Entry.isIndependentOf_iff (isBlank_of_entryOfMarkup he) (isBlank_of_entryOfMarkup he'),
    name_of_entryOfMarkup_markup he, name_of_entryOfMarkup_markup he', ne_eq, ne_eq,
    String.ofList_inj]
  exact not_congr ⟨fun h => methodId_eq_of_trim h.symm, fun h => by rw [h]⟩

/-- Two methods of a type with one name and one number of type parameters are both among
the members of its declaration.  Their IDs are the same, and the entry of each is dropped
behind that of the other, just if the parameters that count have the same names; this
cannot be if there are more of them in one of the methods. -/
theorem overload_ids (s : Scope) (kind : TypeKind) (type : String) (typeArity : Nat)
    {members : List Member} (hp : (Member.method lead name arity ps).IsAmong members)
    (hq : (Member.method lead' name arity qs).IsAmong members)
    (hps : ∀ p ∈ ps, IsClosed p.type.toList) (hqs : ∀ q ∈ qs, IsClosed q.type.toList) :
    let inner := s.enterType (typeMetadataName type typeArity)
    ∃ d rest, declarationsOfType s kind type typeArity members = d :: rest ∧
      methodSymbol inner lead name arity ps ∈ d.members ∧
      methodSymbol inner lead' name arity qs ∈ d.members ∧
      (methodId inner name arity ps = methodId inner name arity qs ↔
        countedNames ps = countedNames qs) ∧
      (∀ e e', entryOfMarkup (methodSymbol inner lead name arity ps).documentation = some e →
        entryOfMarkup (methodSymbol inner lead' name arity qs).documentation = some e' →
        (e.IsIndependentOf e' ↔ countedNames ps ≠ countedNames qs) ∧
          (e'.IsIndependentOf e ↔ countedNames ps ≠ countedNames qs)) ∧
      ((ps.filter (!·.isVariadic)).length ≠ (qs.filter (!·.isVariadic)).length →
        countedNames ps ≠ countedNames qs) := by
  intro inner
  have hids := methodId_eq_iff inner name arity hps hqs
  refine ⟨_, _, declarationsOfType_eq s kind type typeArity members,
    mem_collectMembers hp (List.mem_singleton_self _),
    mem_collectMembers hq (List.mem_singleton_self _), hids, fun e e' he he' => ⟨?_, ?_⟩,
    fun hlen h => hlen ?_⟩
  · rw [isIndependentOf_iff_methodId he he', ne_eq, hids]
  · rw [isIndependentOf_iff_methodId he' he, ne_comm, ne_eq, hids]
  · simpa [countedNames] using congrArg List.length h

end Overloads

/-- What stands before a method with a summary. -/
def summaryLead (summary : List Char) : Lead :=
  ⟨[.ofList ('/' :: '/' :: '/' :: summaryLine summary)], ["static"]⟩

def oneParameter : List Parameter := [⟨[], "string"⟩]

def twoParameters : List Parameter := [⟨[], "string"⟩, ⟨["ref"], "Dictionary<int,string>"⟩]

/-- An overload in a branch of a conditional group. -/
def conditionalOverload : List Member :=
  [.method (summaryLead ['1']) "F" 0 oneParameter,
    .conditional [.method (summaryLead ['2']) "F" 0 twoParameters]]

theorem overload_ids_conditionalOverload :
    (Member.method (summaryLead ['1']) "F" 0 oneParameter).IsAmong conditionalOverload ∧
      (Member.method (summaryLead ['2']) "F" 0 twoParameters).IsAmong conditionalOverload ∧
      (∀ p ∈ oneParameter, IsClosed p.type.toList) ∧
      (∀ p ∈ twoParameters, IsClosed p.type.toList) ∧
      methodId (Scope.file.enterType "Strings") "F" 0 oneParameter ≠
        methodId (Scope.file.enterType "Strings") "F" 0 twoParameters := by
  have hone : (Member.method (summaryLead ['1']) "F" 0 oneParameter).IsAmong conditionalOverload :=
    .head _
  have htwo : (Member.method (summaryLead ['2']) "F" 0 twoParameters).IsAmong conditionalOverload :=
    .tail _ (.branch _ (.head _))
  have hclosed : ∀ p ∈ oneParameter, IsClosed p.type.toList := by decide
  have hclosed' : ∀ p ∈ twoParameters, IsClosed p.type.toList := by decide
  obtain ⟨d, rest, -, -, -, hids, -, hlen⟩ :=
    overload_ids .file .class "Strings" 0 hone htwo hclosed hclosed'
  exact ⟨hone, htwo, hclosed, hclosed', fun h => hlen (by decide) (hids.1 h)⟩

def variadicParameters : List Parameter := oneParameter ++ [⟨["params"], "object[]"⟩]

/-- An overload with a parameter that takes any number of arguments. -/
def variadicOverload : List Member :=
  [.method (summaryLead ['1']) "F" 0 oneParameter,
    .method (summaryLead ['2']) "F" 0 variadicParameters]

theorem documentationLine?_slashes {line : List Char} (h : line.head? ≠ some '/') :
    documentationLine? (.ofList ('/' :: '/' :: '/' :: line)) = some (.ofList line) := by
  rw [documentationLine?, String.toList_ofList]
  split
  · next rest hline =>
    cases hline
    exact absurd rfl h
  · next hline =>
    cases hline
    rfl
  · next hline => exact (hline line rfl).elim

/-- A summary is read back under the ID of its method. -/
theorem entryOfMarkup_methodSymbol {s : Scope} {name : String} {arity : Nat}
    {ps : List Parameter} (hid : isBlankText (methodId s name arity ps).toList = false)
    {summary : List Char} (h : IsTrimmed summary) (hsummary : '\n' ∉ summary) :
    entryOfMarkup (methodSymbol s (summaryLead summary) name arity ps).documentation =
      some ⟨.ofList (trim (methodId s name arity ps).toList), .ofList summary⟩ := by
  have hlines : (summaryLead summary).comments.filterMap documentationLine? =
      [.ofList (summaryLine summary)] := by
    have hhead : (summaryLine summary).head? = some '<' := rfl
    have hline : (summaryLine summary).head? ≠ some '/' := by
      rw [hhead]
      decide
    rw [summaryLead, List.filterMap_cons, documentationLine?_slashes hline]
    rfl
  rw [methodSymbol, documented, hlines, entryOfMarkup_summaryLine hid h hsummary]

/-- The overload has the ID of the other method, and its entry is dropped. -/
theorem entries_variadicOverload :
    let inner := Scope.file.enterType "Strings"
    oneParameter.length ≠ variadicParameters.length ∧
      methodId inner "F" 0 oneParameter = "M:Strings.F(System.String)" ∧
      methodId inner "F" 0 variadicParameters = "M:Strings.F(System.String)" ∧
      (collectMembers inner variadicOverload).members.filterMap (entryOfMarkup ·.documentation) =
        [⟨"M:Strings.F(System.String)", "1"⟩, ⟨"M:Strings.F(System.String)", "2"⟩] ∧
      (Table.ofEntries [⟨"M:Strings.F(System.String)", "1"⟩,
        ⟨"M:Strings.F(System.String)", "2"⟩]).entries = [⟨"M:Strings.F(System.String)", "1"⟩] := by
  intro inner
  have hone : methodId inner "F" 0 oneParameter = "M:Strings.F(System.String)" := by
    decide +kernel
  have hother : methodId inner "F" 0 variadicParameters = "M:Strings.F(System.String)" := by
    decide +kernel
  have hid : isBlankText "M:Strings.F(System.String)".toList = false := by decide
  have htrim : trim "M:Strings.F(System.String)".toList = "M:Strings.F(System.String)".toList :=
    by decide +kernel
  have hentry : entryOfMarkup
      (methodSymbol inner (summaryLead ['1']) "F" 0 oneParameter).documentation =
        some ⟨"M:Strings.F(System.String)", "1"⟩ := by
    rw [entryOfMarkup_methodSymbol (hone ▸ hid) (isTrimmed_singleton rfl) (by decide), hone,
      htrim, String.ofList_toList]
  have hdropped : entryOfMarkup
      (methodSymbol inner (summaryLead ['2']) "F" 0 variadicParameters).documentation =
        some ⟨"M:Strings.F(System.String)", "2"⟩ := by
    rw [entryOfMarkup_methodSymbol (hother ▸ hid) (isTrimmed_singleton rfl) (by decide), hother,
      htrim, String.ofList_toList]
  have hmembers : (collectMembers inner variadicOverload).members =
      [methodSymbol inner (summaryLead ['1']) "F" 0 oneParameter,
        methodSymbol inner (summaryLead ['2']) "F" 0 variadicParameters] := rfl
  refine ⟨by decide, hone, hother, ?_, by decide⟩
  have hread {m : MemberSymbol} {e : Entry} {ms : List MemberSymbol}
      (h : entryOfMarkup m.documentation = some e) :
      (m :: ms).filterMap (entryOfMarkup ·.documentation) =
        e :: ms.filterMap (entryOfMarkup ·.documentation) := List.filterMap_cons_some h
  rw [hmembers, hread hentry, hread hdropped, List.filterMap_nil]

end ResourceAudit
