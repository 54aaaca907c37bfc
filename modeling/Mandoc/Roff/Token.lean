import Mandoc.CString

/-!
# Tokens

The tokens of requests and macros (`enum roff_tok`), the request lookup table, and the
names of the standard macros. A request that has a handler function of its own is a
token of its own. The requests that are ignored, unsupported, or insecure only differ in
their names, so there is one constructor for each of the three groups.
-/

namespace Mandoc

/-- `enum roff_tok` -/
inductive Tok where
  | ROFF_br | ROFF_ce | ROFF_fi | ROFF_ft | ROFF_ll | ROFF_mc | ROFF_nf | ROFF_po | ROFF_rj
  | ROFF_sp | ROFF_ta | ROFF_ti | ROFF_als | ROFF_am | ROFF_am1 | ROFF_ami | ROFF_ami1 | ROFF_as
  | ROFF_as1 | ROFF_break | ROFF_brp | ROFF_cc | ROFF_char | ROFF_Dd | ROFF_de | ROFF_de1
  | ROFF_dei | ROFF_dei1 | ROFF_ds | ROFF_ds1 | ROFF_ec | ROFF_el | ROFF_EN | ROFF_eo | ROFF_EQ
  | ROFF_ie | ROFF_if | ROFF_ig | ROFF_it | ROFF_nop | ROFF_nr | ROFF_return | ROFF_rm | ROFF_rn
  | ROFF_rr | ROFF_shift | ROFF_so | ROFF_soquiet | ROFF_stringdown | ROFF_stringup | ROFF_T_
  | ROFF_TE | ROFF_TH | ROFF_tr | ROFF_TS | ROFF_while | ROFF_cblock
  /-- A request handled by `roff_line_ignore()`. -/
  | lineIgnore (name : String)
  /-- A request handled by `roff_insec()`. -/
  | insec (name : String)
  /-- A request handled by `roff_unsupp()`. -/
  | unsupp (name : String)
  /-- New name of a renamed request or macro. -/
  | ROFF_RENAMED
  /-- User defined macro. -/
  | ROFF_USERDEF
  /-- Undefined macro or text/tbl/eqn/comment node. -/
  | TOKEN_NONE
  /-- An mdoc(7) macro. -/
  | MDOC (name : String)
  /-- A man(7) macro. -/
  | MAN (name : String)
deriving DecidableEq, Repr

/-- Requests with a handler function of their own: `roff_name[]`. -/
def ownRequests : List (String × Tok) := [
  ("br", .ROFF_br), ("ce", .ROFF_ce), ("fi", .ROFF_fi), ("ft", .ROFF_ft), ("ll", .ROFF_ll),
  ("mc", .ROFF_mc), ("nf", .ROFF_nf), ("po", .ROFF_po), ("rj", .ROFF_rj), ("sp", .ROFF_sp),
  ("ta", .ROFF_ta), ("ti", .ROFF_ti), ("als", .ROFF_als), ("am", .ROFF_am), ("am1", .ROFF_am1),
  ("ami", .ROFF_ami), ("ami1", .ROFF_ami1), ("as", .ROFF_as), ("as1", .ROFF_as1),
  ("break", .ROFF_break), ("brp", .ROFF_brp), ("cc", .ROFF_cc), ("char", .ROFF_char),
  ("Dd", .ROFF_Dd), ("de", .ROFF_de), ("de1", .ROFF_de1), ("dei", .ROFF_dei),
  ("dei1", .ROFF_dei1), ("ds", .ROFF_ds), ("ds1", .ROFF_ds1), ("ec", .ROFF_ec),
  ("el", .ROFF_el), ("EN", .ROFF_EN), ("eo", .ROFF_eo), ("EQ", .ROFF_EQ), ("ie", .ROFF_ie),
  ("if", .ROFF_if), ("ig", .ROFF_ig), ("it", .ROFF_it), ("nop", .ROFF_nop), ("nr", .ROFF_nr),
  ("return", .ROFF_return), ("rm", .ROFF_rm), ("rn", .ROFF_rn), ("rr", .ROFF_rr),
  ("shift", .ROFF_shift), ("so", .ROFF_so), ("soquiet", .ROFF_soquiet),
  ("stringdown", .ROFF_stringdown), ("stringup", .ROFF_stringup), ("T&", .ROFF_T_),
  ("TE", .ROFF_TE), ("TH", .ROFF_TH), ("tr", .ROFF_tr), ("TS", .ROFF_TS),
  ("while", .ROFF_while), (".", .ROFF_cblock)]

/-- Requests that are ignored: `roff_line_ignore()`. -/
def lineIgnoreRequests : List String := [
  "ad", "af", "backtrace", "bd", "bleedat", "bp", "breakchar", "brnl", "brpnl", "cflags", "ch",
  "class", "color", "cp", "cropat", "cs", "cu", "defcolor", "errprint", "fallback", "fam",
  "fcolor", "fdeferlig", "feature", "fkern", "fl", "flig", "fp", "fps", "fspacewidth",
  "fspecial", "ftr", "fzoom", "gcolor", "hc", "hcode", "hidechar", "hla", "hlm", "hpf", "hpfa",
  "hpfcode", "hw", "hy", "hydefault", "hylang", "hylen", "hym", "hypp", "hys", "IX", "kern",
  "kernafter", "kernbefore", "kernpair", "letadj", "lg", "lhang", "ls", "lt", "mediasize",
  "minss", "mk", "na", "ne", "nh", "nhychar", "nroff", "ns", "os", "padj", "papersize", "pc",
  "pchar", "pcolor", "pcomposite", "pev", "phw", "pl", "pline", "pm", "pn", "pnr", "ps",
  "pstream", "ptr", "pvs", "pwh", "rd", "recursionlimit", "rhang", "rs", "rt", "sentchar",
  "shc", "sizes", "spacewidth", "special", "spreadwarn", "ss", "sty", "sv", "tkf", "tm", "tm1",
  "tmc", "track", "transchar", "trimat", "troff", "uf", "ul", "unwatch", "unwatchn", "vpt",
  "vs", "warn", "warnscale", "watch", "watchlength", "watchn", "xflag"]

/-- Insecure requests: `roff_insec()`. -/
def insecRequests : List String := [
  "cf", "close", "lf", "mso", "msoquiet", "nx", "open", "opena", "pi", "pso", "sy", "trf",
  "write", "writec", "writem"]

/-- Unsupported requests: `roff_unsupp()`. -/
def unsuppRequests : List String := [
  "ab", "aln", "asciify", "blm", "box", "boxa", "BP", "c2", "chop", "CL", "composite",
  "continue", "da", "dch", "device", "devicem", "di", "do", "dwh", "dt", "ecr", "ecs", "em",
  "EP", "ev", "evc", "ex", "fc", "fchar", "fschar", "index", "itc", "lc", "lc_ctype", "lds",
  "length", "linetabs", "lnr", "lnrf", "lpfx", "lsm", "nm", "nn", "nrf", "output", "PI", "psbb",
  "pshape", "rchar", "rfschar", "rnn", "schar", "substring", "tc", "tl", "trin", "trnt",
  "unformat", "wh"]

/-- The request lookup table: `roffhash_alloc(0, ROFF_RENAMED)`. -/
def reqtab : List (String × Tok) :=
  ownRequests ++ lineIgnoreRequests.map (fun n => (n, .lineIgnore n))
    ++ insecRequests.map (fun n => (n, .insec n)) ++ unsuppRequests.map fun n => (n, .unsupp n)

/-- `roffhash_find()` in the request table. -/
def roffhashFind (name : CStr) : Tok :=
  match reqtab.find? (·.1.toList = name) with
  | some (_, t) => t
  | none => .TOKEN_NONE

/-- Names of the mdoc(7) macros. -/
def mdocNames : List String := [
  "Dd", "Dt", "Os", "Sh", "Ss", "Pp", "D1", "Dl", "Bd", "Ed", "Bl", "El", "It", "Ad", "An",
  "Ap", "Ar", "Cd", "Cm", "Dv", "Er", "Ev", "Ex", "Fa", "Fd", "Fl", "Fn", "Ft", "Ic", "In",
  "Li", "Nd", "Nm", "Op", "Ot", "Pa", "Rv", "St", "Va", "Vt", "Xr", "%A", "%B", "%D", "%I",
  "%J", "%N", "%O", "%P", "%R", "%T", "%V", "Ac", "Ao", "Aq", "At", "Bc", "Bf", "Bo", "Bq",
  "Bsx", "Bx", "Db", "Dc", "Do", "Dq", "Ec", "Ef", "Em", "Eo", "Fx", "Ms", "No", "Ns", "Nx",
  "Ox", "Pc", "Pf", "Po", "Pq", "Qc", "Ql", "Qo", "Qq", "Re", "Rs", "Sc", "So", "Sq", "Sm",
  "Sx", "Sy", "Tn", "Ux", "Xc", "Xo", "Fo", "Fc", "Oo", "Oc", "Bk", "Ek", "Bt", "Hf", "Fr",
  "Ud", "Lb", "Lp", "Lk", "Mt", "Brq", "Bro", "Brc", "%C", "Es", "En", "Dx", "%Q", "%U", "Ta",
  "Tg"]

/-- Names of the man(7) macros. -/
def manNames : List String := [
  "TH", "SH", "SS", "TP", "TQ", "LP", "PP", "P", "IP", "HP", "SM", "SB", "BI", "IB", "BR", "RB",
  "R", "B", "I", "IR", "RI", "RE", "RS", "DT", "UC", "PD", "AT", "in", "SY", "YS", "OP", "EX",
  "EE", "UR", "UE", "MT", "ME", "MR"]

/-- The requests that are always interpreted: `ROFFMAC_STRUCT`. -/
def Tok.isStruct : Tok → Bool
  | .ROFF_el | .ROFF_ie | .ROFF_if | .ROFF_while => true
  | _ => false

end Mandoc
