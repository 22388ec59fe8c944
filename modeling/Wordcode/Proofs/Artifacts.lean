import Wordcode.Proofs.Codecs
import Wordcode.Proofs.Records
import Wordcode.Proofs.Validation
import Mathlib

namespace Wordcode

/-! # Artifacts and code objects

A code object that is written as an artifact and read back is the same code object, apart from the
serial numbers that reading hands out and from what becomes of doubles.

* `Code.content` is what a code object holds, without serial numbers; `Code.contentWith` also maps
  its doubles.
* `Code.Floatless` says that a code object holds no doubles at all.
* `Artifact.exists_restores`: the record of an accepted code object is one of its content.
* `Code.ofArtifact_toArtifact_floats` is the way there and back, and without doubles
  `Code.ofArtifact_toArtifact`.
-/

/-! ## Contents -/

namespace Code

mutual

/-- What a code object holds: all of it, apart from serial numbers, and apart from whether an empty
stream is there at all. -/
def content : CodeOf Const → Code
  | { id, name, file, instructions, constants := cs, names, variableNames, positionalOnly,
      positional, keywordOnly, flags, .. } =>
    { id, name, file, instructions, constants := contentIn cs, names, variableNames,
      positionalOnly, positional, keywordOnly, flags }

/-- The content of a constant. -/
def contentConst : Const → Const
  | .code c => .code (content c)
  | .tuple items => .tuple (contentIn items)
  | k => k

/-- The contents of constants in their order. -/
def contentIn : List Const → List Const
  | [] => []
  | k :: ks => contentConst k :: contentIn ks

end

section

variable (f : UInt64 → UInt64)

mutual

/-- What a code object holds, with its doubles mapped. -/
def contentWith : CodeOf Const → Code
  | { id, name, file, instructions, constants := cs, names, variableNames, positionalOnly,
      positional, keywordOnly, flags, .. } =>
    { id, name, file, instructions, constants := contentInWith cs, names, variableNames,
      positionalOnly, positional, keywordOnly, flags }

/-- The content of a constant, with its doubles mapped. -/
def contentConstWith : Const → Const
  | .float x => .float (f x)
  | .code c => .code (contentWith c)
  | .tuple items => .tuple (contentInWith items)
  | k => k

/-- The contents of constants in their order, with their doubles mapped. -/
def contentInWith : List Const → List Const
  | [] => []
  | k :: ks => contentConstWith k :: contentInWith ks

end

end

mutual

/-- No constant is a double, neither in the pool nor in tuples and nested code objects. -/
def Floatless : CodeOf Const → Prop
  | { constants := cs, .. } => FloatlessIn cs

/-- A constant that is no double and has none in it. -/
def FloatlessConst : Const → Prop
  | .float _ => False
  | .code c => Floatless c
  | .tuple items => FloatlessIn items
  | _ => True

/-- Constants that are no doubles and have none in them. -/
def FloatlessIn : List Const → Prop
  | [] => True
  | k :: ks => FloatlessConst k ∧ FloatlessIn ks

end

mutual

/-- Where there are no doubles, mapping them changes nothing. -/
theorem contentWith_of_floatless (f : UInt64 → UInt64) : (c : Code) → Floatless c →
    contentWith f c = content c
  | { constants := cs, .. } => by
      intro h
      rw [Floatless] at h
      rw [contentWith, content, contentInWith_of_floatless f cs h]

/-- Constants without floats do not depend on what becomes of floats. -/
theorem contentConstWith_of_floatless (f : UInt64 → UInt64) : (k : Const) → FloatlessConst k →
    contentConstWith f k = contentConst k
  | .code c => by
      intro h
      rw [FloatlessConst] at h
      rw [contentConstWith, contentConst, contentWith_of_floatless f c h]
  | .tuple items => by
      intro h
      rw [FloatlessConst] at h
      rw [contentConstWith, contentConst, contentInWith_of_floatless f items h]
  | .float _ => by simp [FloatlessConst]
  | .none | .bool _ | .int _ | .str _ | .stray _ | .noCode | .array _ | .foreign _ => by
      simp [contentConstWith, contentConst]

theorem contentInWith_of_floatless (f : UInt64 → UInt64) : (ks : List Const) → FloatlessIn ks →
    contentInWith f ks = contentIn ks
  | [] => fun _ => rfl
  | k :: ks => by
      intro h
      rw [FloatlessIn] at h
      rw [contentInWith, contentIn, contentConstWith_of_floatless f k h.1,
        contentInWith_of_floatless f ks h.2]

end

mutual

/-- Floats that stay what they are change nothing. -/
theorem contentWith_id : (c : Code) → contentWith id c = content c
  | { constants := cs, .. } => by rw [contentWith, content, contentInWith_id cs]

theorem contentConstWith_id : (k : Const) → contentConstWith id k = contentConst k
  | .code c => by rw [contentConstWith, contentConst, contentWith_id c]
  | .tuple items => by rw [contentConstWith, contentConst, contentInWith_id items]
  | .float _ | .none | .bool _ | .int _ | .str _ | .stray _ | .noCode | .array _ | .foreign _ => by
      simp [contentConstWith, contentConst]

theorem contentInWith_id : (ks : List Const) → contentInWith id ks = contentIn ks
  | [] => rfl
  | k :: ks => by rw [contentInWith, contentIn, contentConstWith_id k, contentInWith_id ks]

end

/-- The content of a code object, field by field. -/
theorem content_eq (c : Code) :
    content c = { c with serial := 0, hasStream := true, constants := contentIn c.constants } := by
  cases c
  rw [content]

section

variable (f : UInt64 → UInt64)

/-- The same with what becomes of floats. -/
theorem contentWith_eq (c : Code) :
    contentWith f c =
      { c with serial := 0, hasStream := true, constants := contentInWith f c.constants } := by
  cases c
  rw [contentWith]

theorem contentInWith_eq (ks : List Const) : contentInWith f ks = ks.map (contentConstWith f) := by
  induction ks with
  | nil => rfl
  | cons k ks ih => rw [contentInWith, ih, List.map_cons]

mutual

/-- The content of a constant is as usable as the constant. -/
theorem unsupported?_contentConstWith : (k : Const) →
    (contentConstWith f k).unsupported? = k.unsupported?
  | .tuple items => by
      rw [contentConstWith, Const.unsupported?, Const.unsupported?]
      exact unsupportedIn?_contentInWith items
  | .code _ | .float _ => by
      rw [contentConstWith]
      simp [Const.unsupported?]
  | .none | .bool _ | .int _ | .str _ | .stray _ | .noCode | .array _ | .foreign _ => by
      rw [contentConstWith]
      all_goals simp

/-- Whether something is not supported does not depend on floats. -/
theorem unsupportedIn?_contentInWith : (ks : List Const) →
    Const.unsupported?.unsupportedIn? (contentInWith f ks) = Const.unsupported?.unsupportedIn? ks
  | [] => rfl
  | k :: ks => by
      rw [contentInWith, Const.unsupported?.unsupportedIn?, Const.unsupported?.unsupportedIn?,
        unsupported?_contentConstWith k, unsupportedIn?_contentInWith ks]

end

/-- Neither do the problems of the code object itself. -/
theorem ownProblems_contentWith (c : Code) : ownProblems (contentWith f c) = ownProblems c := by
  have hparameters : (contentWith f c).parameterProblems = c.parameterProblems := by
    rw [contentWith_eq]
    rfl
  have hconstants {α : Type} (g : Const × Nat → Option α)
      (h : ∀ k i, g (contentConstWith f k, i) = g (k, i)) :
      (contentWith f c).constants.zipIdx.filterMap g = c.constants.zipIdx.filterMap g := by
    rw [contentWith_eq, contentInWith_eq, List.zipIdx_map, List.filterMap_map]
    exact List.filterMap_congr fun ki _ => h ki.1 ki.2
  unfold ownProblems
  rw [hparameters, hconstants _ fun k i => by simp only [unsupported?_contentConstWith],
    contentWith_eq]

mutual

/-- The content of a code object has the same problems. -/
theorem problems_contentWith : (c : Code) → problems (contentWith f c) = problems c
  | { serial, id, name, file, instructions, hasStream, constants := cs, names, variableNames,
      positionalOnly, positional, keywordOnly, flags } => by
      rw [problems_eq, problems_eq, ownProblems_contentWith, contentWith_eq]
      simp only [problemsIn_contentInWith cs]

/-- Neither do the problems of its constants. -/
theorem problemsConst_contentConstWith : (k : Const) →
    problemsConst (contentConstWith f k) = problemsConst k
  | .code c => by
      have hname : (contentWith f c).name = c.name := by rw [contentWith_eq]
      rw [contentConstWith, problemsConst, problemsConst, problems_contentWith c, hname]
  | .tuple items => by
      rw [contentConstWith, problemsConst, problemsConst, problemsIn_contentInWith items]
  | .float _ => by
      rw [contentConstWith]
      simp [problemsConst]
  | .none | .bool _ | .int _ | .str _ | .stray _ | .noCode | .array _ | .foreign _ => by
      rw [contentConstWith]
      all_goals simp

theorem problemsIn_contentInWith : (ks : List Const) →
    problemsIn (contentInWith f ks) = problemsIn ks
  | [] => rfl
  | k :: ks => by
      rw [contentInWith, problemsIn, problemsIn, problemsConst_contentConstWith k,
        problemsIn_contentInWith ks]

end

/-- Validation looks at the content only, and not at the values of doubles. -/
theorem validate_eq_of_content_eq {c c' : Code} (h : content c' = contentWith f c) :
    c'.validate = c.validate := by
  unfold validate
  rw [← problems_contentWith id c', contentWith_id, h, problems_contentWith]

end

end Code

namespace Artifact

open Code

/-! ## Restoring records -/

/-- An identifier is found again under its text. -/
theorem ofText_text (id : Identifier) (serial : Nat) : Identifier.ofText id.text serial = id := by
  rw [Identifier.ofText, dif_neg id.nonempty]

/-- The constant of bytes that are the encoding of a text. -/
theorem ofOctets_octets (s : String) : Const.ofOctets (Text.octets s) = .str s := by
  have hread : Text.ofUtf8? (Text.octets s) = some s := by
    unfold Text.ofUtf8? String.fromUTF8?
    exact dif_pos s.isValidUTF8
  unfold Const.ofOctets
  split
  · rename_i s' hs
    rw [hread] at hs
    cases hs
    rfl
  · rename_i hs
    rw [hread] at hs
    cases hs

theorem ofOctets_bytes (s : Text.Stray) : Const.ofOctets s.bytes = .stray s := by
  have hread := s.no_text
  unfold Const.ofOctets
  split
  · rename_i s' hs
    rw [hread] at hs
    cases hs
  · rfl

section

variable (f : UInt64 → UInt64)

/-- A record that becomes a code object of a given content, when its doubles are mapped and whatever
serial number is next. -/
def Restores (c : Code) (r : CodeRecord) : Prop :=
  ∀ n, ∃ c' n', toCode (mapCode f r) n = .ok (c', n') ∧ content c' = contentWith f c

/-- A record that becomes a constant of a given content. -/
def RestoresConst (k : Const) (r : ConstRecord) : Prop :=
  ∀ n, ∃ k' n', toConst (mapConst f r) n = .ok (k', n') ∧ contentConst k' = contentConstWith f k

variable {f}

/-- Constants are restored in their order. Whether they are the items of a tuple or a pool makes no
difference, since positions matter only for the message about a bad one. -/
theorem toItems_of_restores {ks : List Const} {rs : List ConstRecord}
    (h : List.Forall₂ (RestoresConst f) ks rs) (n : Nat) :
    ∃ ks' n', toItems (mapConsts f rs) n = .ok (ks', n') ∧
      (∀ name i, toConsts name i (mapConsts f rs) n = .ok (ks', n')) ∧
        contentIn ks' = contentInWith f ks := by
  -- the numbers given to code objects run on, so the count is any
  induction h generalizing n with
  | nil => exact ⟨[], n, rfl, fun _ _ => rfl, rfl⟩
  | @cons k r ks rs hfirst _ ih =>
      obtain ⟨k', n₁, hk, hcontent⟩ := hfirst n
      obtain ⟨ks', n₂, hitems, hpool, hcontents⟩ := ih n₁
      refine ⟨k' :: ks', n₂, ?_, ?_, ?_⟩
      · rw [mapConsts, toItems]
        simp [bind, StateT.bind, Except.bind, hk, hitems, pure, StateT.pure, Except.pure]
      · intro name i
        rw [mapConsts, toConsts]
        simp [bind, StateT.bind, Except.bind, tryCatch, tryCatchThe, MonadExceptOf.tryCatch,
          Except.tryCatch, hk, hpool name (i + 1), pure, StateT.pure, Except.pure]
      · rw [contentIn, contentInWith, hcontent, hcontents]

/-- The record of a code object with recorded constants. -/
theorem restores_codeRecord {c : Code} {rs : List ConstRecord}
    (hconstants : List.Forall₂ (RestoresConst f) c.constants rs) :
    Restores f c (codeRecord c rs) := by
  intro n
  obtain ⟨ks', n', -, hpool, hcontents⟩ := toItems_of_restores hconstants n
  -- an empty stream and a missing one are told apart by a flag of their own
  have hstream : (if c.instructions.isEmpty && !c.hasStream then none
      else some c.instructions).getD [] = c.instructions := by
    split
    · rename_i hempty
      rw [Bool.and_eq_true, List.isEmpty_iff] at hempty
      rw [hempty.1]
      rfl
    · rfl
  refine ⟨{ c with serial := n', hasStream := !(c.instructions.isEmpty && !c.hasStream),
                   constants := ks' }, n' + 1, ?_, ?_⟩
  · rw [codeRecord, mapCode, toCode]
    simp only [bind, StateT.bind, Except.bind, hpool c.name 0, Build.serial, pure, StateT.pure,
      Except.pure, get, getThe, MonadStateOf.get, StateT.get, set, StateT.set, ofText_text, hstream]
    cases c.instructions.isEmpty && !c.hasStream <;> rfl
  · rw [content_eq, contentWith_eq, hcontents]

/-- The record of a constant without further constants in it. -/
theorem restores_atom {k : Const} {r : ConstRecord} (k' : Const)
    (hread : ∀ n, toConst (mapConst f r) n = .ok (k', n))
    (hcontent : contentConst k' = contentConstWith f k) : RestoresConst f k r :=
  fun n => ⟨k', n, hread n, hcontent⟩

/-- A nested code object is restored as a constant. -/
theorem restores_code {c : Code} {r : CodeRecord} (h : Restores f c r) :
    RestoresConst f (.code c) (.mk "code" false 0 0 [] (some r) []) := by
  intro n
  obtain ⟨c', n', hread, hcontent⟩ := h n
  refine ⟨.code c', n', ?_, by rw [contentConst, contentConstWith, hcontent]⟩
  rw [mapConst, mapCode?, toConst]
  simp [bind, StateT.bind, Except.bind, hread, pure, StateT.pure, Except.pure]

/-- A tuple is restored when its items are. -/
theorem restores_tuple {ks : List Const} {rs : List ConstRecord}
    (h : List.Forall₂ (RestoresConst f) ks rs) :
    RestoresConst f (.tuple ks) (.mk "tuple" false 0 0 [] none rs) := by
  intro n
  obtain ⟨ks', n', hitems, -, hcontents⟩ := toItems_of_restores h n
  refine ⟨.tuple ks', n', ?_, by rw [contentConst, contentConstWith, hcontents]⟩
  rw [mapConst, toConst]
  simp [bind, StateT.bind, Except.bind, hitems, pure, StateT.pure, Except.pure]

/-! ## Recording -/

mutual

/-- An accepted code object has a record, and the record restores it. -/
theorem exists_restores : (c : Code) → problems c = .ok [] →
    ∃ r, ofCode c = .ok r ∧ ∀ f, Restores f c r
  | { serial, id, name, file, instructions, hasStream, constants := cs, names, variableNames,
      positionalOnly, positional, keywordOnly, flags } => by
      intro hproblems
      rw [problems_eq, append_eq_ok_nil_iff, ownProblems_eq_nil_iff] at hproblems
      obtain ⟨⟨-, -, -, hsupported⟩, hnested⟩ := hproblems
      obtain ⟨rs, -, hpool, hrestores⟩ := exists_restoresIn cs hnested hsupported
      refine ⟨_, ?_, fun f => restores_codeRecord (hrestores f)⟩
      rw [ofCode, hpool name 0]
      rfl

/-- A constant without problems is recorded, and the record restores it. -/
theorem exists_restoresConst : (k : Const) → problemsConst k = .ok [] → k.unsupported? = none →
    ∃ r, ofConst k = .ok r ∧ ∀ f, RestoresConst f k r
  | .none => fun _ _ => ⟨_, by rw [ofConst], fun _ => restores_atom .none (fun _ => rfl) rfl⟩
  | .bool b => fun _ _ => ⟨_, by rw [ofConst], fun _ => restores_atom (.bool b) (fun _ => rfl) rfl⟩
  | .int n => fun _ _ => ⟨_, by rw [ofConst], fun _ => restores_atom (.int n) (fun _ => rfl) rfl⟩
  | .float x => fun _ _ =>
      ⟨_, by rw [ofConst], fun f => restores_atom (.float (f x)) (fun _ => rfl) rfl⟩
  | .str s => fun _ _ =>
      ⟨_, by rw [ofConst], fun _ => restores_atom (Const.ofOctets (Text.octets s)) (fun _ => rfl)
        (by rw [ofOctets_octets]; simp [contentConst, contentConstWith])⟩
  | .stray s => fun _ _ =>
      ⟨_, by rw [ofConst], fun _ => restores_atom (Const.ofOctets s.bytes) (fun _ => rfl)
        (by rw [ofOctets_bytes]; simp [contentConst, contentConstWith])⟩
  | .code c => by
      intro hproblems _
      rw [problemsConst_eq_nil_iff, Const.children] at hproblems
      obtain ⟨_, hc, haccepted⟩ := hproblems (some c) List.mem_cons_self
      cases hc
      obtain ⟨r, hr, hrestores⟩ := exists_restores c (validate_eq_ok_iff_problems.mp haccepted)
      refine ⟨_, ?_, fun f => restores_code (hrestores f)⟩
      rw [ofConst, hr]
      rfl
  | .tuple ks => by
      intro hproblems hsupported
      rw [problemsConst] at hproblems
      rw [Const.unsupported?, Const.unsupportedIn?_eq_none_iff] at hsupported
      obtain ⟨rs, hitems, -, hrestores⟩ := exists_restoresIn ks hproblems hsupported
      refine ⟨_, ?_, fun f => restores_tuple (hrestores f)⟩
      rw [ofConst, hitems]
      rfl
  | .noCode => by
      intro hproblems
      rw [problemsConst] at hproblems
      cases hproblems
  | .array _ | .foreign _ => by
      intro _ hsupported
      rw [Const.unsupported?] at hsupported
      cases hsupported

/-- Constants are recorded one after another, as the items of a tuple or as a pool. -/
theorem exists_restoresIn : (ks : List Const) → problemsIn ks = .ok [] →
    (∀ k ∈ ks, k.unsupported? = none) →
    ∃ rs, ofItems ks = .ok rs ∧ (∀ name i, ofConsts name i ks = .ok rs) ∧
      ∀ f, List.Forall₂ (RestoresConst f) ks rs
  | [] => fun _ _ => ⟨[], by rw [ofItems], fun _ _ => by rw [ofConsts], fun _ => .nil⟩
  | k :: ks => by
      intro hproblems hsupported
      rw [problemsIn, append_eq_ok_nil_iff] at hproblems
      obtain ⟨r, hr, hrestores⟩ := exists_restoresConst k hproblems.1
        (hsupported k List.mem_cons_self)
      obtain ⟨rs, hitems, hpool, hrestoresIn⟩ := exists_restoresIn ks hproblems.2
        (fun k' hk' => hsupported k' (List.mem_cons_of_mem k hk'))
      refine ⟨r :: rs, ?_, ?_, fun f => .cons (hrestores f) (hrestoresIn f)⟩
      · rw [ofItems, hr, hitems]
        rfl
      · -- the names of the positions only show up in messages
        intro name i
        rw [ofConsts, hr]
        simp only [hpool name (i + 1)]
        rfl

end

end

end Artifact

namespace Code

open Artifact

/-! ## Whole artifacts -/

/-- A code object whose record keeps to the limits of codecs: it does not nest too deep, its
sequences are not too long, and its texts are UTF-8. -/
def Fits (c : Code) : Prop := ∀ r, ofCode c = .ok r → Contents.fits { version, code? := some r }

variable {codec : Codec}

/-- Reading an artifact is restoring the record in it and validating the result. -/
theorem ofArtifact_eq_ok {bytes : List UInt8} {r : CodeRecord} {c : Code} {n n' : Nat}
    (hdecode : codec.decode? bytes = some { version, code? := some r })
    (hcode : toCode r n = .ok (c, n')) (hvalid : c.validate = .ok ()) :
    ofArtifact codec bytes n = .ok (c, n') := by
  unfold ofArtifact
  rw [hdecode]
  simp [bind, StateT.bind, Except.bind, hcode, hvalid, pure, StateT.pure, Except.pure]

/-- An accepted code object within the limits of codecs comes back with all it holds, apart from
what becomes of doubles, whatever serial number is next. -/
theorem ofArtifact_toArtifact_floats (hcodec : codec.Lawful) {c : Code}
    (hvalid : c.validate = .ok ()) (hfits : c.Fits) :
    ∃ bytes f, c.toArtifact codec = .ok bytes ∧
      (∀ x, Decimal.isNan x = false → f x = restored x) ∧
      ∀ n, ∃ c' n', ofArtifact codec bytes n = .ok (c', n') ∧ content c' = contentWith f c := by
  obtain ⟨r, hrecord, hrestores⟩ := exists_restores c (validate_eq_ok_iff_problems.mp hvalid)
  obtain ⟨_, hdecode, f, hf, rfl⟩ := hcodec.decode?_encode _ (hfits r hrecord)
  refine ⟨codec.encode { version, code? := some r }, f, ?_, hf, fun n => ?_⟩
  · rw [toArtifact, hrecord]
    rfl
  · obtain ⟨c', n', hcode, hcontent⟩ := hrestores f n
    rw [Contents.map, mapCode?] at hdecode
    have hvalid' : c'.validate = .ok () := (validate_eq_of_content_eq f hcontent).trans hvalid
    exact ⟨c', n', ofArtifact_eq_ok hdecode hcode hvalid', hcontent⟩

/-- What is written as an artifact is read back: an accepted code object without doubles, within the
limits of codecs, comes back with all it holds, whatever serial number is next. -/
theorem ofArtifact_toArtifact (hcodec : codec.Lawful) {c : Code} (hvalid : c.validate = .ok ())
    (hfloatless : Floatless c) (hfits : c.Fits) :
    ∃ bytes, c.toArtifact codec = .ok bytes ∧
      ∀ n, ∃ c' n', ofArtifact codec bytes n = .ok (c', n') ∧ content c' = content c := by
  obtain ⟨bytes, f, hwrite, -, hread⟩ := ofArtifact_toArtifact_floats hcodec hvalid hfits
  refine ⟨bytes, hwrite, fun n => ?_⟩
  rw [← contentWith_of_floatless f c hfloatless]
  exact hread n

/-- A module with a tuple and a function in its pool is such a code object, and binary objects make
up such a codec. -/
theorem ofArtifact_toArtifact_nested :
    let c : Code :=
      { name := "module", instructions := [1, 0], names := ["f"],
        constants := [.tuple [.int (-7), .str "é", .none],
          .code { name := "f", variableNames := ["x"], positional := 1 }] }
    binary.Lawful ∧ c.validate = .ok () ∧ Floatless c ∧ c.Fits ∧
      ∃ bytes, c.toArtifact binary = .ok bytes ∧
        ∀ n, ∃ c' n', ofArtifact binary bytes n = .ok (c', n') ∧ content c' = content c := by
  intro c
  have hvalid : c.validate = .ok () := rfl
  have hfloatless : Floatless c := by
    simp [c, Floatless, FloatlessConst, FloatlessIn]
  have hfits : c.Fits := by
    intro r h
    cases h
    cbv
  exact ⟨binary_lawful, hvalid, hfloatless, hfits,
    ofArtifact_toArtifact binary_lawful hvalid hfloatless hfits⟩

end Code

end Wordcode
