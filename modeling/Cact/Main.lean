import Cact.Driver

/-!
# The process

{lit}`main.c` with everything it prints, and the printing of a diagnostic by
{lit}`ctx_error`.  What the process finds outside itself, the files and the source manager of
the library, is a parameter.

A process writes to two streams.  A diagnostic is written when it is reported; since nothing
else goes to that stream while the parser runs, it is added here when the parser ends.

Main results:

- Definition {lit}`Node.kind`: the kinds of {lit}`ast.h`, in their order.
- Definitions {lit}`Diagnostic.print`, {lit}`Process.runCompile` and {lit}`Process.main`.
-/

open Traced

namespace Cact

/-! ## Kinds of nodes -/

/-- {lit}`NodeKind`, in the order of {lit}`ast.h`. -/
inductive NodeKind where
  | litInt
  | litFloat
  | litDouble
  | litBool
  | initList
  | var
  | funcCall
  | arrayAccess
  | neg
  | logNot
  | cast
  | add
  | sub
  | mul
  | div
  | mod
  | eq
  | ne
  | lt
  | le
  | gt
  | ge
  | logAnd
  | logOr
  | assign
  | block
  | ifStmt
  | whileStmt
  | retStmt
  | exprStmt
  | varDecl
  | breakStmt
  | continueStmt
deriving DecidableEq, Repr

def BinOp.kind : BinOp → NodeKind
  | .add => .add
  | .sub => .sub
  | .mul => .mul
  | .div => .div
  | .mod => .mod
  | .eq => .eq
  | .ne => .ne
  | .lt => .lt
  | .le => .le
  | .gt => .gt
  | .ge => .ge
  | .logAnd => .logAnd
  | .logOr => .logOr

/-- Member {lit}`kind` of a node. -/
def Node.kind : Node → NodeKind
  | litInt _ _ => .litInt
  | litFloat _ _ => .litFloat
  | litDouble _ _ => .litDouble
  | litBool _ _ => .litBool
  | initList _ _ => .initList
  | var _ _ => .var
  | funcCall _ _ _ => .funcCall
  | arrayAccess _ _ _ => .arrayAccess
  | neg _ _ => .neg
  | logNot _ _ => .logNot
  | binary op _ _ _ => op.kind
  | assign _ _ _ => .assign
  | block _ _ => .block
  | ifStmt _ _ _ _ => .ifStmt
  | whileStmt _ _ _ => .whileStmt
  | retStmt _ _ => .retStmt
  | exprStmt _ _ => .exprStmt
  | varDecl _ _ _ => .varDecl
  | breakStmt _ => .breakStmt
  | continueStmt _ => .continueStmt

/-! ## Texts -/

/-- The bytes of a text of the source. -/
def bytes (s : String) : List UInt8 := s.toList.map byte

/-- A number printed with {lit}`%zu` or {lit}`%d`. -/
def decimal (n : Nat) : List UInt8 := (Nat.toDigits 10 n).map byte

/-- The help text, {lit}`USAGE_INFO`. -/
def usageInfo : List UInt8 :=
  bytes "cactc - The CACT Compiler\n" ++ bytes "\n" ++ bytes "Usage:\n" ++
    bytes "    cactc [options] <file>\n" ++ bytes "\n" ++ bytes "Options:\n" ++
    bytes "    -o <file>      Output file (default: a.out)\n" ++
    bytes "    -h, --help     Show this help message\n" ++ bytes "\n"

/-! ## The host -/

/-- A place in a file, as the source manager tells it. -/
structure SrcLoc where
  filename : List UInt8
  line : Nat
  col : Nat

/-- What the source manager tells of a file: its offset among all files, the place of an
offset, and the line an offset is in. -/
structure SrcFile where
  baseOffset : Nat
  lookup : Nat → Option SrcLoc
  lineContent : Nat → List UInt8

/-- What the process finds outside itself.  Standard output is buffered, and a crash loses what
is still in the buffer: of a text that was written, {lit}`flushed` tells how many bytes have left
it. -/
structure Host where
  stringInit : Bool
  fileReadToString : List UInt8 → Option (List UInt8)
  srcmanagerAdd : List UInt8 → List UInt8 → SrcFile
  logError : List UInt8 → List UInt8
  flushed : List UInt8 → Nat

/-- What has come out of the two streams of the process. -/
structure Output where
  stdout : List UInt8
  stderr : List UInt8
deriving DecidableEq, Repr

/-! ## Diagnostics -/

/-- The line of a diagnostic with the column marked below it.  The precision of the format
counts the bytes of the line, and a zero byte ends the text.  In front of column zero the
width of the format is negative, and pads one blank to the right. -/
def excerpt (line : List UInt8) (col : Nat) : List UInt8 :=
  if line.length = 0 then []
  else
    bytes "    " ++ line.takeWhile (· != 0) ++ bytes "\n" ++
      (bytes "    " ++ List.replicate (if col = 0 then 1 else col - 1) (byte ' ') ++ bytes "^\n")

/-- What {lit}`ctx_error` prints. -/
def Diagnostic.print (file : SrcFile) (d : Diagnostic) : List UInt8 :=
  match d.loc.bind fun s => (file.lookup s.start).map fun loc => (s, loc) with
  | none => bytes "Error: " ++ bytes d.msg.text ++ bytes "\n"
  | some (s, loc) =>
      loc.filename ++ bytes ":" ++ decimal loc.line ++ bytes ":" ++ decimal loc.col ++
        bytes ": Error: " ++ bytes d.msg.text ++ bytes "\n" ++
        excerpt (file.lineContent s.start) loc.col

/-- The diagnostics a context has printed. -/
def Context.print (file : SrcFile) (ctx : Context) : List UInt8 :=
  ctx.diags.flatMap (Diagnostic.print file)

namespace Process

/-! ## Compiling -/

def compilingInfo (filepath : List UInt8) : List UInt8 :=
  bytes "[INFO] Compiling '" ++ filepath ++ bytes "'...\n"

def kindInfo (n : Node) : List UInt8 :=
  bytes "  - Node Kind: " ++ decimal n.kind.ctorIdx ++ bytes "\n"

def parsedInfo (globals : List Node) : List UInt8 :=
  bytes "[INFO] Parsed " ++ decimal globals.length ++ bytes " top-level nodes.\n" ++
    globals.flatMap kindInfo

/-- {lit}`run_compile`. -/
def runCompile (h : Host) (f : Fluf) (mem : Memory) (filepath : List UInt8) :
    Outcome Output Bool :=
  if !h.stringInit then .done false ⟨[], h.logError (bytes "OOM reading file")⟩
  else
    match h.fileReadToString filepath with
    | none =>
        .done false ⟨[], h.logError (bytes "Could not read file '" ++ filepath ++ bytes "'")⟩
    | some content =>
        let file := h.srcmanagerAdd filepath content
        match (compileRun f mem file.baseOffset content).outcome with
        | .done globals p =>
            if p.ctx.hadError then .done false ⟨compilingInfo filepath, p.ctx.print file⟩
            else .done true ⟨compilingInfo filepath ++ parsedInfo globals, p.ctx.print file⟩
        | .fault p =>
            let info := compilingInfo filepath
            .fault ⟨info.take (h.flushed info), p.ctx.print file⟩
        | .timeout => .timeout

/-! ## Arguments -/

def isHelp (arg : List UInt8) : Bool := arg == bytes "-h" || arg == bytes "--help"

/-- What the arguments ask for: the help text, or an input file if one was found. -/
inductive Request where
  | help
  | input (inputFile : Option (List UInt8))
deriving DecidableEq, Repr

/-- The argument loop of {lit}`main`, over the input file found so far. -/
def scanArgs (inputFile : Option (List UInt8)) : List (List UInt8) → Request
  | [] => .input inputFile
  | arg :: args =>
      if isHelp arg then .help
      else scanArgs (if arg.head? ≠ some (byte '-') then some arg else inputFile) args

/-- {lit}`main`: its exit status and what it printed. -/
def main (h : Host) (f : Fluf) (mem : Memory) (argv : List (List UInt8)) : Outcome Output Nat :=
  if argv.length < 2 then .done 1 ⟨usageInfo, []⟩
  else
    match scanArgs none argv.tail with
    | .help => .done 0 ⟨usageInfo, []⟩
    | .input none => .done 1 ⟨[], bytes "Error: No input file specified.\n"⟩
    | .input (some inputFile) =>
        match runCompile h f mem inputFile with
        | .done success out => .done (if success then 0 else 1) out
        | .fault out => .fault out
        | .timeout => .timeout

end Process

end Cact
