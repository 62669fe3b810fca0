/-
# `CKernel.Patterns.Audit` — the directory scan of `design_patterns/finial/audit`

A tree of files and directories, some of them sensitive, is visited depth first by a
`RiskVisitor`, which notes the files that a rule accepts.  `SecureScanProxy` refuses an
employee a sensitive root, and looks at no other directory.

    a scan reports the files that the rule accepts, in order      (`scan_eq`)
    what is below sensitive directories is reported as well       (`files_length_fill`)
    so employees see the same of two trees that differ there      (`scan_same`)
    exactly where no file is accepted there                       (`scan_same_iff`)
-/
import Mathlib

namespace CKernel.Patterns.Audit

/-! ## The code -/

structure FileType where
  extension : String
  category : String
  deriving DecidableEq, Repr

structure File where
  name : String
  sizeKb : UInt64
  type : FileType
  deriving DecidableEq, Repr

inductive Node where
  | file (f : File)
  | directory (name : String) (sensitive : Bool) (children : List Node)

/-- `Directory`, where it is the root of a scan. -/
structure Directory where
  name : String
  sensitive : Bool
  children : List Node

def Directory.toNode (d : Directory) : Node := .directory d.name d.sensitive d.children

/-- `NodeVisitor`, with the state it keeps. -/
structure NodeVisitor (σ : Type) where
  visitFile : σ → File → σ
  visitDirectory : σ → Directory → σ

variable {σ : Type}

mutual

/-- `accept(visitor)` of both kinds of node. -/
def Node.accept (visitor : NodeVisitor σ) (s : σ) : Node → σ
  | .file f => visitor.visitFile s f
  | .directory name sensitive children =>
      acceptAll visitor (visitor.visitDirectory s ⟨name, sensitive, children⟩) children

/-- `for (const auto &child : children_) child->accept(visitor)` -/
def acceptAll (visitor : NodeVisitor σ) (s : σ) : List Node → σ
  | [] => s
  | child :: children => acceptAll visitor (child.accept visitor s) children

end

inductive RuleExpression where
  | extensionIs (extension : String)
  | sizeGreaterThan (kb : UInt64)
  | andExpression (left right : RuleExpression)
  deriving DecidableEq, Repr

namespace RuleExpression

def interpret : RuleExpression → File → Bool
  | .extensionIs extension, file => file.type.extension == extension
  | .sizeGreaterThan kb, file => file.sizeKb > kb
  | .andExpression left right, file => left.interpret file && right.interpret file

end RuleExpression

/-- `RiskVisitor`, with its `risks_`. -/
def riskVisitor (rule : RuleExpression) : NodeVisitor (List String) where
  visitFile risks file := if rule.interpret file then risks ++ [file.name] else risks
  visitDirectory risks _ := risks

inductive Role where
  | employee
  | admin
  deriving DecidableEq, Repr

/-- What a scan writes to the log, and what it returns or throws. -/
structure Scan where
  log : List String
  result : Except String (List String)

abbrev ScanService := Directory → Role → RuleExpression → Scan

/-- `RealScanService::scan` -/
def realScanService : ScanService := fun root _ rule =>
  ⟨[], .ok (root.toNode.accept (riskVisitor rule) [])⟩

/-- `SecureScanProxy::scan` -/
def secureScanProxy (target : ScanService) : ScanService := fun root role rule =>
  if root.sensitive && role ≠ .admin then ⟨[], .error "权限不足：敏感目录仅管理员可扫描"⟩
  else
    let scan := target root role rule
    { scan with log := ("[审计日志] 开始扫描目录：" ++ root.name) :: scan.log }

/-! ## What the results say -/

mutual

/-- The files of a tree, in the order of the visit. -/
def Node.files : Node → List File
  | .file f => [f]
  | .directory _ _ children => filesAll children

def filesAll : List Node → List File
  | [] => []
  | child :: children => child.files ++ filesAll children

end

mutual

/-- The tree with `content` below its sensitive directories. -/
def Node.fill (content : List Node) : Node → Node
  | .file f => .file f
  | .directory name true _ => .directory name true content
  | .directory name false children => .directory name false (fillAll content children)

def fillAll (content : List Node) : List Node → List Node
  | [] => []
  | child :: children => child.fill content :: fillAll content children

end

mutual

/-- The outermost sensitive directories. -/
def Node.sensitives : Node → List Directory
  | .file _ => []
  | .directory name true children => [⟨name, true, children⟩]
  | .directory _ false children => sensitivesAll children

def sensitivesAll : List Node → List Directory
  | [] => []
  | child :: children => child.sensitives ++ sensitivesAll children

end

/-- Equal except below sensitive directories. -/
def SameOutside (root root' : Directory) : Prop :=
  root.toNode.fill [] = root'.toNode.fill []

/-- The files below sensitive directories. -/
def hidden (root : Directory) : List File :=
  root.toNode.sensitives.flatMap fun d => filesAll d.children

/-! ## Trees -/

/-- Induction over a tree, with all its children at once. -/
theorem Node.induct {P : Node → Prop} (file : ∀ f, P (.file f))
    (directory : ∀ name sensitive children, (∀ child ∈ children, P child) →
      P (.directory name sensitive children)) (t : Node) : P t :=
  @Node.rec P (fun children => ∀ child ∈ children, P child) file directory
    (fun _ h => absurd h List.not_mem_nil)
    (fun _ _ hhead htail => List.forall_mem_cons.mpr ⟨hhead, htail⟩) t

theorem filesAll_eq (children : List Node) : filesAll children = children.flatMap Node.files := by
  induction children with
  | nil => rfl
  | cons child children ih => rw [filesAll, ih, List.flatMap_cons]

theorem fillAll_eq (content children : List Node) :
    fillAll content children = children.map (Node.fill content) := by
  induction children with
  | nil => rfl
  | cons child children ih => rw [fillAll, ih, List.map_cons]

theorem sensitivesAll_eq (children : List Node) :
    sensitivesAll children = children.flatMap Node.sensitives := by
  induction children with
  | nil => rfl
  | cons child children ih => rw [sensitivesAll, ih, List.flatMap_cons]

/-- What is hidden in a tree is replaced, and only that. -/
theorem fill_fill (content content' : List Node) (t : Node) :
    (t.fill content).fill content' = t.fill content' := by
  induction t using Node.induct with
  | file f => rfl
  | directory name sensitive children ih =>
      cases sensitive with
      | true => rfl
      | false =>
          rw [Node.fill, Node.fill, Node.fill, fillAll_eq, fillAll_eq, fillAll_eq, List.map_map]
          congr 1
          exact List.map_congr_left ih

/-- The sensitive directories themselves stay. -/
theorem length_sensitives_fill (content : List Node) (t : Node) :
    (t.fill content).sensitives.length = t.sensitives.length := by
  induction t using Node.induct with
  | file f => rfl
  | directory name sensitive children ih =>
      cases sensitive with
      | true => rfl
      | false =>
          rw [Node.fill, Node.sensitives, Node.sensitives, fillAll_eq, sensitivesAll_eq,
            sensitivesAll_eq, List.flatMap_map, List.length_flatMap, List.length_flatMap]
          congr 1
          exact List.map_congr_left ih

/-! ## A scan -/

/-- The files that the rule accepts. -/
def accepted (rule : RuleExpression) (files : List File) : List String :=
  (files.filter rule.interpret).map File.name

theorem accepted_append (rule : RuleExpression) (files files' : List File) :
    accepted rule (files ++ files') = accepted rule files ++ accepted rule files' := by
  rw [accepted, List.filter_append, List.map_append]
  rfl

/-- The visit notes the files that the rule accepts, after those it has. -/
theorem accept_risk (rule : RuleExpression) (t : Node) (risks : List String) :
    t.accept (riskVisitor rule) risks = risks ++ accepted rule t.files := by
  induction t using Node.induct generalizing risks with
  | file f =>
      show (if rule.interpret f then risks ++ [f.name] else risks) = _
      rw [Node.files, accepted]
      by_cases h : rule.interpret f = true
      · rw [if_pos h, List.filter_cons_of_pos h]
        rfl
      · rw [if_neg h, List.filter_cons_of_neg h]
        exact (List.append_nil risks).symm
  | directory name sensitive children ih =>
      rw [Node.accept, Node.files]
      show acceptAll (riskVisitor rule) risks children = _
      clear name sensitive
      induction children generalizing risks with
      | nil => exact (List.append_nil risks).symm
      | cons child children ihc =>
          rw [acceptAll, filesAll, accepted_append, ih child List.mem_cons_self,
            ihc fun c hc => ih c (List.mem_cons_of_mem _ hc), List.append_assoc]

/-- An employee's scan of a root that is not sensitive. -/
theorem scan_eq {root : Directory} (h : root.sensitive = false) (rule : RuleExpression) :
    (secureScanProxy realScanService root .employee rule).result =
      .ok (accepted rule root.toNode.files) := by
  rw [secureScanProxy, h]
  show Except.ok (root.toNode.accept (riskVisitor rule) []) = _
  rw [accept_risk, List.nil_append]

/-- A sensitive root is refused, and no service is asked. -/
theorem scan_refused {root : Directory} (h : root.sensitive = true) (target : ScanService)
    (rule : RuleExpression) :
    (secureScanProxy target root .employee rule).result =
      .error "权限不足：敏感目录仅管理员可扫描" := by
  rw [secureScanProxy, h]
  rfl

/-! ## Two trees -/

theorem accepted_flatMap {α : Type} (rule : RuleExpression) (l : List α) (f : α → List File) :
    accepted rule (l.flatMap f) = l.flatMap fun a => accepted rule (f a) := by
  induction l with
  | nil => rfl
  | cons a l ih => rw [List.flatMap_cons, accepted_append, ih, List.flatMap_cons]

/-- Where the rule accepts nothing that is hidden, a scan is one of the visible tree. -/
theorem accepted_visible (rule : RuleExpression) (t : Node)
    (h : ∀ d ∈ t.sensitives, accepted rule (filesAll d.children) = []) :
    accepted rule t.files = accepted rule (t.fill []).files := by
  induction t using Node.induct with
  | file f => rfl
  | directory name sensitive children ih =>
      cases sensitive with
      | true => exact h ⟨name, true, children⟩ (List.mem_singleton.mpr rfl)
      | false =>
          rw [Node.fill, Node.files, Node.files, fillAll_eq, filesAll_eq, filesAll_eq,
            List.flatMap_map, accepted_flatMap, accepted_flatMap]
          rw [Node.sensitives, sensitivesAll_eq] at h
          refine List.flatMap_congr fun child hchild => ih child hchild fun d hd => ?_
          exact h d (List.mem_flatMap.mpr ⟨child, hchild, hd⟩)

/-- The content of sensitive directories is counted once for each. -/
theorem files_length_fill (rule : RuleExpression) (content : List Node) (t : Node) :
    (accepted rule (t.fill content).files).length =
      (accepted rule (t.fill []).files).length +
        t.sensitives.length * (accepted rule (filesAll content)).length := by
  induction t using Node.induct with
  | file f =>
      rw [Node.sensitives, List.length_nil, Nat.zero_mul]
      rfl
  | directory name sensitive children ih =>
      cases sensitive with
      | true =>
          rw [Node.sensitives, List.length_singleton, Nat.one_mul]
          exact (Nat.zero_add _).symm
      | false =>
          rw [Node.fill, Node.fill, Node.files, Node.files, Node.sensitives]
          clear name
          induction children with
          | nil =>
              rw [sensitivesAll, List.length_nil, Nat.zero_mul]
              rfl
          | cons child children ihc =>
              have hchild := ih child List.mem_cons_self
              have hrest := ihc fun c hc => ih c (List.mem_cons_of_mem _ hc)
              rw [fillAll, fillAll, filesAll, filesAll, sensitivesAll, accepted_append,
                accepted_append, List.length_append, List.length_append, List.length_append,
                hchild, hrest, Nat.add_mul]
              omega

/-- The tree of a root that is not sensitive, with other content. -/
def Directory.fill (content : List Node) (root : Directory) : Directory :=
  { root with children := fillAll content root.children }

variable {root root' : Directory} {rule : RuleExpression}

theorem toNode_fill (h : root.sensitive = false) (content : List Node) :
    (root.fill content).toNode = root.toNode.fill content := by
  rw [Directory.fill, Directory.toNode, Directory.toNode, h]
  rfl

theorem sameOutside_fill (h : root.sensitive = false) (content : List Node) :
    SameOutside root (root.fill content) := by
  rw [SameOutside, toNode_fill h, fill_fill]

theorem accepted_hidden (h : accepted rule (hidden root) = []) :
    ∀ d ∈ root.toNode.sensitives, accepted rule (filesAll d.children) = [] := by
  rw [hidden, accepted_flatMap] at h
  exact List.flatMap_eq_nil_iff.mp h

/-- Two trees that differ where the rule accepts nothing. -/
theorem scan_same (h : root.sensitive = false) (h' : root'.sensitive = false)
    (hsame : SameOutside root root') (hhidden : accepted rule (hidden root) = [])
    (hhidden' : accepted rule (hidden root') = []) :
    (secureScanProxy realScanService root .employee rule).result =
      (secureScanProxy realScanService root' .employee rule).result := by
  rw [scan_eq h, scan_eq h', accepted_visible rule _ (accepted_hidden hhidden),
    accepted_visible rule _ (accepted_hidden hhidden'), hsame]

/-- A file that the rule accepts, put below a sensitive directory, is reported. -/
theorem scan_differs (h : root.sensitive = false) (hsensitive : root.toNode.sensitives ≠ [])
    {f : File} (hf : rule.interpret f = true) :
    (secureScanProxy realScanService (root.fill []) .employee rule).result ≠
      (secureScanProxy realScanService (root.fill [.file f]) .employee rule).result := by
  intro heq
  rw [@scan_eq (root.fill []) h, @scan_eq (root.fill [.file f]) h, toNode_fill h,
    toNode_fill h] at heq
  have hlen := files_length_fill rule [.file f] root.toNode
  rw [← Except.ok.inj heq] at hlen
  have hone : (accepted rule (filesAll [.file f])).length = 1 := by
    show ((([f] : List File).filter rule.interpret).map File.name).length = 1
    rw [List.filter_cons_of_pos hf]
    rfl
  have hpos := List.length_pos_of_ne_nil hsensitive
  rw [hone, Nat.mul_one] at hlen
  omega

/-- All trees that are the same outside sensitive directories give the same list just
when there is no such directory, or the rule accepts no file at all. -/
theorem scan_same_iff (h : root.sensitive = false) :
    (∀ root', root'.sensitive = false → SameOutside root root' →
      (secureScanProxy realScanService root .employee rule).result =
        (secureScanProxy realScanService root' .employee rule).result) ↔
      root.toNode.sensitives = [] ∨ ∀ f, rule.interpret f = false := by
  constructor
  · intro hall
    by_contra hnot
    rw [not_or, not_forall] at hnot
    obtain ⟨hsensitive, f, hf⟩ := hnot
    refine scan_differs h hsensitive (Bool.of_not_eq_false hf) ?_
    rw [← hall (root.fill []) h (sameOutside_fill h []),
      ← hall (root.fill [.file f]) h (sameOutside_fill h _)]
  · rintro (hnone | hrule) root' h' hsame
    · have hnone' : root'.toNode.sensitives = [] := by
        rw [← List.length_eq_zero_iff, ← length_sensitives_fill [], ← hsame,
          length_sensitives_fill, hnone, List.length_nil]
      refine scan_same h h' hsame ?_ ?_
      · rw [hidden, hnone]
        rfl
      · rw [hidden, hnone']
        rfl
    · have hnil (files : List File) : accepted rule files = [] := by
        rw [accepted, List.filter_eq_nil_iff.mpr fun f _ => by rw [hrule f]; exact Bool.false_ne_true]
        rfl
      exact scan_same h h' hsame (hnil _) (hnil _)

/-- What the proxy keeps from employees.  A sensitive root is refused.  Under a root
that is not, two trees that are the same outside sensitive directories give the same
list if the rule accepts no file inside them; and a tree gives the same list as all
such trees exactly when it has no sensitive directory or the rule accepts nothing. -/
theorem employee_scan (root : Directory) (rule : RuleExpression) :
    (root.sensitive = true → ∀ target,
      (secureScanProxy target root .employee rule).result =
        .error "权限不足：敏感目录仅管理员可扫描") ∧
    (root.sensitive = false →
      (∀ root', root'.sensitive = false → SameOutside root root' →
        accepted rule (hidden root) = [] → accepted rule (hidden root') = [] →
          (secureScanProxy realScanService root .employee rule).result =
            (secureScanProxy realScanService root' .employee rule).result) ∧
      ((∀ root', root'.sensitive = false → SameOutside root root' →
        (secureScanProxy realScanService root .employee rule).result =
          (secureScanProxy realScanService root' .employee rule).result) ↔
        root.toNode.sensitives = [] ∨ ∀ f, rule.interpret f = false)) := by
  refine ⟨fun h target => scan_refused h target rule, fun h => ⟨?_, scan_same_iff h⟩⟩
  intro root' h' hsame hhidden hhidden'
  exact scan_same h h' hsame hhidden hhidden'

/-- A public root with one sensitive directory, and what is stored in it. -/
def server (content : List Node) : Directory :=
  ⟨"server", false, [.directory "logs" true content, .file ⟨"main.cpp", 12, ⟨".cpp", "source"⟩⟩]⟩

def leak : File := ⟨"leak.log", 2048, ⟨".log", "log"⟩⟩

/-- A rule for sources reports the same, whatever logs are hidden. -/
theorem employee_scan_sources :
    (secureScanProxy realScanService (server []) .employee (.extensionIs ".cpp")).result =
      (secureScanProxy realScanService (server [.file leak]) .employee
        (.extensionIs ".cpp")).result :=
  ((employee_scan (server []) (.extensionIs ".cpp")).2 rfl).1 (server [.file leak]) rfl rfl
    (by decide +kernel) (by decide +kernel)

/-- A rule for logs reports the hidden one. -/
theorem employee_sees_hidden :
    ¬ ∀ (root root' : Directory) (rule : RuleExpression), root.sensitive = false →
      root'.sensitive = false → SameOutside root root' →
        (secureScanProxy realScanService root .employee rule).result =
          (secureScanProxy realScanService root' .employee rule).result := by
  intro hall
  have heq := hall (server []) (server [.file leak]) (.extensionIs ".log") rfl rfl rfl
  rw [scan_eq rfl, scan_eq rfl] at heq
  have hlists : accepted (.extensionIs ".log") (server []).toNode.files ≠
      accepted (.extensionIs ".log") (server [.file leak]).toNode.files := by decide +kernel
  exact hlists (Except.ok.inj heq)

end CKernel.Patterns.Audit
