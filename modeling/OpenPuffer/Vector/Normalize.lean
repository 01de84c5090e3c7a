import OpenPuffer.Vector.Encoding
import OpenPuffer.Meta

/-!
# Normalization of written attributes

Before a row is queued, its vector attributes are decoded to arrays of floats.  An attribute
counts as a vector if the schema says so, or if its value decodes as one, so a field of another
type may be rewritten as well.  The keys are visited in the order of a hash map, which decides
the reported error and nothing else (`lookup_normalizeAttribute`).
-/

namespace OpenPuffer

open HashMap Except List

/-- `json!` of an `f64`.  What is not finite has no JSON number. -/
def Json.ofF64 : Fp → Json
  | .num q => .num (.float q)
  | .negZero => .num .negZero
  | .inf _ | .nan => .null

/-- True when the value is a vector, a numeric array or a base64 text. -/
def isVectorValue (v : Json) : Bool := (decodeVectorValue v).isOk

def declaredSpec (m : NamespaceMeta) (name : String) : Option Json :=
  m.schema.asObject.bind (getField name)

def fieldIsVectorInSchema (m : NamespaceMeta) (name : String) : Bool :=
  ((declaredSpec m name).map fieldIsVectorSpec).getD false

/-- The visit of one key. -/
def normalizeAttribute (m : NamespaceMeta) (attrs : Attributes) (key : String) :
    Except VectorError Attributes :=
  let isVec := fieldIsVectorInSchema m key || ((attrs.lookup key).map isVectorValue).getD false
  if !isVec then .ok attrs
  else
    match attrs.lookup key with
    | none => .ok attrs
    | some raw => do
      let decoded ←
        decodeVectorValueWithElement raw (some (vectorElementForField m.schema key))
      .ok ((attrs.erase key).insert key (.arr (decoded.map Json.ofF64)))

/-- Decode the vectors among the attributes of an upsert or a patch. -/
def normalizeDocumentVectors (o : IterOrder String) (attrs : Attributes) (m : NamespaceMeta) :
    Except VectorError Attributes :=
  (o.toList attrs.keys).foldlM (normalizeAttribute m) attrs

/-! ## One attribute -/

/-- What the visit of a key makes of its value. -/
def normalizedValue (m : NamespaceMeta) (key : String) (v : Json) : Except VectorError Json :=
  if fieldIsVectorInSchema m key || isVectorValue v then
    (decodeVectorValueWithElement v (some (vectorElementForField m.schema key))).map fun decoded =>
      .arr (decoded.map Json.ofF64)
  else .ok v

variable {m : NamespaceMeta} {attrs attrs' : Attributes} {key : String}

theorem normalizeAttribute_eq {v : Json} (hv : attrs.lookup key = some v) :
    normalizeAttribute m attrs key
      = (normalizedValue m key v).map fun v' => attrs.insert key v' := by
  simp only [normalizeAttribute, normalizedValue, hv, Option.map_some, Option.getD_some]
  cases fieldIsVectorInSchema m key || isVectorValue v with
  | false =>
    refine congrArg Except.ok (ext_lookup fun k => ?_)
    rw [lookup_insert_ite]
    split
    · rename_i hk
      rw [hk, hv]
    · rfl
  | true =>
    cases decodeVectorValueWithElement v (some (vectorElementForField m.schema key)) with
    | error e => rfl
    | ok decoded =>
      refine congrArg Except.ok (ext_lookup fun k => ?_)
      simp only [lookup_insert_ite, lookup_erase_ite]
      split <;> rfl

/-- A visit normalizes its attribute and leaves the others alone. -/
theorem lookup_normalizeAttribute {next : Attributes}
    (h : normalizeAttribute m attrs key = .ok next) :
    (∀ other ≠ key, next.lookup other = attrs.lookup other) ∧
      ∀ v, attrs.lookup key = some v →
        ∃ v', normalizedValue m key v = .ok v' ∧ next.lookup key = some v' := by
  cases hv : attrs.lookup key with
  | none =>
    have hsame : next = attrs := by
      simp only [normalizeAttribute, hv] at h
      split at h
      · exact (ok.inj h).symm
      · exact (ok.inj h).symm
    exact ⟨fun _ _ => by rw [hsame], by simp⟩
  | some raw =>
    rw [normalizeAttribute_eq hv] at h
    cases hval : normalizedValue m key raw with
    | error e =>
      rw [hval] at h
      cases h
    | ok v' =>
      rw [hval] at h
      obtain rfl : attrs.insert key v' = next := ok.inj h
      constructor
      · intro other hne
        rw [lookup_insert_ite, if_neg hne]
      · intro v heq
        cases heq
        exact ⟨v', hval, by rw [lookup_insert_ite, if_pos rfl]⟩

/-! ## All attributes -/

theorem lookup_normalizeKeys {keys : List String} (hnodup : keys.Nodup)
    (h : keys.foldlM (normalizeAttribute m) attrs = .ok attrs') (key : String) :
    (key ∉ keys → attrs'.lookup key = attrs.lookup key) ∧
      (key ∈ keys → ∀ v, attrs.lookup key = some v →
        ∃ v', normalizedValue m key v = .ok v' ∧ attrs'.lookup key = some v') := by
  induction keys generalizing attrs with
  | nil =>
    cases h
    simp
  | cons k keys ih =>
    obtain ⟨hk, hkeys⟩ := nodup_cons.mp hnodup
    rw [foldlM_cons] at h
    obtain ⟨next, hnext, hrest⟩ := bind_eq_ok.mp h
    obtain ⟨hother, hself⟩ := lookup_normalizeAttribute hnext
    obtain ⟨hout, hin⟩ := ih hkeys hrest
    constructor
    · intro hno
      rw [mem_cons, not_or] at hno
      rw [hout hno.2, hother key hno.1]
    · intro hmem v hv
      rcases mem_cons.mp hmem with rfl | hmem
      · obtain ⟨v', hval, hv'⟩ := hself v hv
        exact ⟨v', hval, (hout hk).trans hv'⟩
      · have hne : key ≠ k := fun heq => hk (heq ▸ hmem)
        exact hin hmem v ((hother key hne).trans hv)

/-- An accepted row has the normalized value of each of its attributes. -/
theorem lookup_normalizeDocumentVectors {o : IterOrder String}
    (h : normalizeDocumentVectors o attrs m = .ok attrs') {v : Json}
    (hv : attrs.lookup key = some v) :
    ∃ v', normalizedValue m key v = .ok v' ∧ attrs'.lookup key = some v' := by
  refine (lookup_normalizeKeys (o.nodup _) h key).2 ?_ v hv
  exact (o.mem_toList _ _).mpr (Finmap.mem_keys.mpr (Finmap.mem_of_lookup_eq_some hv))

/-- It has no other attributes. -/
theorem lookup_normalizeDocumentVectors_none {o : IterOrder String}
    (h : normalizeDocumentVectors o attrs m = .ok attrs') (hv : attrs.lookup key = none) :
    attrs'.lookup key = none := by
  rw [(lookup_normalizeKeys (o.nodup _) h key).1 ?_, hv]
  rw [o.mem_toList, Finmap.mem_keys]
  exact Finmap.lookup_eq_none.mp hv

/-! ## Attributes that are no vectors -/

/-- A number that is not a float. -/
def Json.isInteger : Json → Bool
  | .num (.posInt _) | .num (.negInt _) => true
  | _ => false

def Json.isNumber : Json → Bool
  | .num _ => true
  | _ => false

/-- A value that the decoder takes for a vector and does not give back as it is:
a text that is base64 of whole `f32` values, or a list of numbers with an integer
in it. -/
def Json.rewritten : Json → Bool
  | .str s =>
    match decodeBase64 (trim s.toList) with
    | some bytes => bytes.length % 4 = 0
    | none => false
  | .arr items => items.all Json.isNumber && items.any Json.isInteger
  | _ => false

theorem isOk_mapM_vectorComponent (items : List Json) :
    (items.mapM vectorComponent).isOk = items.all Json.isNumber := by
  induction items with
  | nil => rfl
  | cons v items ih =>
    rw [mapM_cons, all_cons, ← ih]
    cases v with
    | num n => cases items.mapM vectorComponent <;> rfl
    | _ => rfl

/-- A component comes back as it was unless it is an integer. -/
theorem ofF64_asF64 (n : Number) :
    Json.ofF64 n.asF64 = .num n ↔ (Json.num n).isInteger = false := by
  cases n <;> simp [Json.ofF64, Number.asF64, Json.isInteger]

theorem map_ofF64_mapM {items : List Json} {decoded : Vec}
    (h : items.mapM vectorComponent = .ok decoded) :
    decoded.map Json.ofF64 = items ↔ items.any Json.isInteger = false := by
  induction items generalizing decoded with
  | nil =>
    cases h
    simp
  | cons v items ih =>
    rw [mapM_cons] at h
    obtain ⟨x, hx, hrest⟩ := bind_eq_ok.mp h
    obtain ⟨xs, hxs, heq⟩ := bind_eq_ok.mp hrest
    cases heq
    cases v with
    | num n =>
      cases hx
      rw [map_cons, cons.injEq, ih hxs, ofF64_asF64, any_cons,
        Bool.or_eq_false_iff]
    | _ => cases hx

theorem isOk_decodeBase64F32Le (s : String) :
    (decodeBase64F32Le s).isOk = (Json.str s).rewritten := by
  simp only [decodeBase64F32Le, Json.rewritten]
  cases decodeBase64 (trim s.toList) with
  | none => rfl
  | some bytes =>
    simp only
    split
    · rename_i hlen
      simp [Except.isOk, Except.toBool, hlen]
    · rename_i hlen
      simp [Except.isOk, Except.toBool, not_not.mp hlen]

/-- What happens to an attribute whose field is not a vector column. -/
theorem normalizedValue_eq_iff {v v' : Json} (hscalar : fieldIsVectorInSchema m key = false)
    (h : normalizedValue m key v = .ok v') : v' = v ↔ v.rewritten = false := by
  simp only [normalizedValue, hscalar, Bool.false_or, isVectorValue, decodeVectorValue] at h
  cases v with
  | str s =>
    have hok : (decodeVectorValueWithElement (.str s) none).isOk = (Json.str s).rewritten :=
      isOk_decodeBase64F32Le s
    rw [hok] at h
    split at h
    · rename_i hyes
      cases hdecode : decodeVectorValueWithElement (.str s)
          (some (vectorElementForField m.schema key)) with
      | error e =>
        rw [hdecode] at h
        cases h
      | ok decoded =>
        rw [hdecode] at h
        cases h
        simp [hyes]
    · rename_i hno
      cases h
      simpa using hno
  | arr items =>
    simp only [decodeVectorValueWithElement, isOk_mapM_vectorComponent] at h
    simp only [Json.rewritten]
    split at h
    · rename_i hall
      cases hdecode : items.mapM vectorComponent with
      | error e =>
        rw [hdecode] at h
        cases h
      | ok decoded =>
        rw [hdecode] at h
        cases h
        rw [Json.arr.injEq, map_ofF64_mapM hdecode, hall, Bool.true_and]
    · rename_i hno
      cases h
      simp [hno]
  | null | bool | num | obj =>
    cases h
    simp [Json.rewritten]

/-- Attributes that the schema declares with another type than a vector keep
their values. -/
def DeclaredKept (m : NamespaceMeta) (attrs attrs' : Attributes) : Prop :=
  ∀ key spec, declaredSpec m key = some spec → fieldIsVectorSpec spec = false →
    attrs'.lookup key = attrs.lookup key

theorem normalize_keeps_declared_iff {o : IterOrder String} {m : NamespaceMeta}
    {attrs attrs' : Attributes} (h : normalizeDocumentVectors o attrs m = .ok attrs') :
    DeclaredKept m attrs attrs' ↔
      ∀ key spec v, declaredSpec m key = some spec → fieldIsVectorSpec spec = false →
        attrs.lookup key = some v → v.rewritten = false := by
  have hscalar {key : String} {spec : Json} (hspec : declaredSpec m key = some spec)
      (hvec : fieldIsVectorSpec spec = false) : fieldIsVectorInSchema m key = false := by
    simp [fieldIsVectorInSchema, hspec, hvec]
  constructor
  · intro hkept key spec v hspec hvec hv
    obtain ⟨v', hval, hv'⟩ := lookup_normalizeDocumentVectors h hv
    refine (normalizedValue_eq_iff (hscalar hspec hvec) hval).mp ?_
    have hsame := hkept key spec hspec hvec
    rw [hv, hv'] at hsame
    exact Option.some.inj hsame
  · intro hsafe key spec hspec hvec
    cases hv : attrs.lookup key with
    | none => exact lookup_normalizeDocumentVectors_none h hv
    | some v =>
      obtain ⟨v', hval, hv'⟩ := lookup_normalizeDocumentVectors h hv
      rw [hv', (normalizedValue_eq_iff (hscalar hspec hvec) hval).mpr
        (hsafe key spec v hspec hvec hv)]

/-- Metadata with a schema that declares a text. -/
def titledMeta : NamespaceMeta := { schema := .obj [("title", .str "string")] }

def titled (title : String) : Attributes := (∅ : Attributes).insert "title" (.str title)

/-- A title with a blank in it stays. -/
theorem spaced_title_kept :
    normalizeDocumentVectors (.sorted String) (titled "hello world") titledMeta
        = .ok (titled "hello world") ∧
      DeclaredKept titledMeta (titled "hello world") (titled "hello world") := by
  have hok : normalizeDocumentVectors (.sorted String) (titled "hello world") titledMeta
      = .ok (titled "hello world") := by decide +kernel
  refine ⟨hok, (normalize_keeps_declared_iff hok).mpr ?_⟩
  intro key spec v hspec hvec hv
  rw [titled, lookup_insert_ite] at hv
  split at hv
  · cases hv
    decide +kernel
  · cases hv

/-- A title of sixteen letters becomes three floats. -/
theorem plain_title_rewritten :
    ∃ attrs', normalizeDocumentVectors (.sorted String) (titled "internationalize") titledMeta
        = .ok attrs' ∧
      (∃ x y z, attrs'.lookup "title" = some (.arr [.num x, .num y, .num z])) ∧
      ¬ DeclaredKept titledMeta (titled "internationalize") attrs' := by
  have hrun : (normalizeDocumentVectors (.sorted String) (titled "internationalize")
      titledMeta).toOption.map (fun attrs' => attrs'.lookup "title")
      = some (some (.arr [.num (.float (mkRat (-7290309) (2 ^ 57))),
          .num (.float (mkRat (-4544187) (2 ^ 130))), .num (.float (-3109091778641264640))])) := by
    decide +kernel
  obtain ⟨attrs', hok, htitle⟩ := Option.map_eq_some_iff.mp hrun
  refine ⟨attrs', toOption_eq_some.mp hok, ⟨_, _, _, htitle⟩, ?_⟩
  intro hkept
  have hsame := hkept "title" (.str "string") (by decide +kernel) (by decide +kernel)
  rw [htitle, titled, lookup_insert_ite, if_pos rfl] at hsame
  cases hsame

end OpenPuffer
