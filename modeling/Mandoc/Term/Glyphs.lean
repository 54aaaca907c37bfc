import Mandoc.Roff.CharNames

/-!
# ASCII Replacements of Characters

The tables `lines` of `chars.c` and `tab` of `term_ascii.c`: the strings printed for the characters
of the roff language, and for Unicode code points, if the output is restricted to ASCII. Many
accented characters are replaced by an accent, a backspace, and a letter.
-/

namespace Mandoc

/-! ## §1 The tables -/

/-- `struct ln`: the name of a character, its replacement, and its code point. -/
structure Ln where
  roffcode : String
  ascii : String
  unicode : Nat

/-- `lines` -/
def lines : List Ln := [
  ⟨" ", "\x1f", 0xa0⟩, ⟨"~", "\x1f", 0xa0⟩, ⟨"0", "\x1f", 0xa0⟩, ⟨":", "\x1d", 0x0⟩,
  ⟨"ba", "|", 0x7c⟩, ⟨"br", "|", 0x2502⟩, ⟨"ul", "_", 0x5f⟩, ⟨"_", "_", 0x5f⟩, ⟨"ru", "_", 0x5f⟩,
  ⟨"rn", "-", 0x203e⟩, ⟨"bb", "|", 0xa6⟩, ⟨"sl", "/", 0x2f⟩, ⟨"rs", "\\", 0x5c⟩,
  ⟨"ci", "O", 0x25cb⟩, ⟨"bu", "+\x08o", 0x2022⟩, ⟨"dd", "<**>", 0x2021⟩, ⟨"dg", "<*>", 0x2020⟩,
  ⟨"lz", "<>", 0x25ca⟩, ⟨"sq", "[]", 0x25a1⟩, ⟨"ps", "<paragraph>", 0xb6⟩,
  ⟨"sc", "<section>", 0xa7⟩, ⟨"lh", "<=", 0x261c⟩, ⟨"rh", "=>", 0x261e⟩, ⟨"at", "@", 0x40⟩,
  ⟨"sh", "#", 0x23⟩, ⟨"CR", "<cr>", 0x21b5⟩, ⟨"OK", "\\/", 0x2713⟩, ⟨"CL", "C", 0x2663⟩,
  ⟨"SP", "S", 0x2660⟩, ⟨"HE", "H", 0x2665⟩, ⟨"DI", "D", 0x2666⟩, ⟨"co", "(C)", 0xa9⟩,
  ⟨"rg", "(R)", 0xae⟩, ⟨"tm", "tm", 0x2122⟩, ⟨"em", "--", 0x2014⟩, ⟨"en", "-", 0x2013⟩,
  ⟨"hy", "-", 0x2010⟩, ⟨"e", "\\", 0x5c⟩, ⟨"r!", "!", 0xa1⟩, ⟨"r?", "?", 0xbf⟩,
  ⟨"Bq", ",,", 0x201e⟩, ⟨"bq", ",", 0x201a⟩, ⟨"lq", "\"", 0x201c⟩, ⟨"rq", "\"", 0x201d⟩,
  ⟨"Lq", "\"", 0x201c⟩, ⟨"Rq", "\"", 0x201d⟩, ⟨"oq", "`", 0x2018⟩, ⟨"cq", "'", 0x2019⟩,
  ⟨"aq", "'", 0x27⟩, ⟨"dq", "\"", 0x22⟩, ⟨"Fo", "<<", 0xab⟩, ⟨"Fc", ">>", 0xbb⟩,
  ⟨"fo", "<", 0x2039⟩, ⟨"fc", ">", 0x203a⟩, ⟨"lB", "[", 0x5b⟩, ⟨"rB", "]", 0x5d⟩,
  ⟨"lC", "\x7b", 0x7b⟩, ⟨"rC", "\x7d", 0x7d⟩, ⟨"la", "<", 0x27e8⟩, ⟨"ra", ">", 0x27e9⟩,
  ⟨"bv", "|", 0x23aa⟩, ⟨"braceex", "|", 0x23aa⟩, ⟨"bracketlefttp", "|", 0x23a1⟩,
  ⟨"bracketleftbt", "|", 0x23a3⟩, ⟨"bracketleftex", "|", 0x23a2⟩, ⟨"bracketrighttp", "|", 0x23a4⟩,
  ⟨"bracketrightbt", "|", 0x23a6⟩, ⟨"bracketrightex", "|", 0x23a5⟩, ⟨"lt", ",-", 0x23a7⟩,
  ⟨"bracelefttp", ",-", 0x23a7⟩, ⟨"lk", "\x7b", 0x23a8⟩, ⟨"braceleftmid", "\x7b", 0x23a8⟩,
  ⟨"lb", "`-", 0x23a9⟩, ⟨"braceleftbt", "`-", 0x23a9⟩, ⟨"braceleftex", "|", 0x23aa⟩,
  ⟨"rt", "-.", 0x23ab⟩, ⟨"bracerighttp", "-.", 0x23ab⟩, ⟨"rk", "\x7d", 0x23ac⟩,
  ⟨"bracerightmid", "\x7d", 0x23ac⟩, ⟨"rb", "-'", 0x23ad⟩, ⟨"bracerightbt", "-'", 0x23ad⟩,
  ⟨"bracerightex", "|", 0x23aa⟩, ⟨"parenlefttp", "/", 0x239b⟩, ⟨"parenleftbt", "\\", 0x239d⟩,
  ⟨"parenleftex", "|", 0x239c⟩, ⟨"parenrighttp", "\\", 0x239e⟩, ⟨"parenrightbt", "/", 0x23a0⟩,
  ⟨"parenrightex", "|", 0x239f⟩, ⟨"<-", "<-", 0x2190⟩, ⟨"->", "->", 0x2192⟩, ⟨"<>", "<->", 0x2194⟩,
  ⟨"da", "|\x08v", 0x2193⟩, ⟨"ua", "|\x08^", 0x2191⟩, ⟨"va", "^v", 0x2195⟩, ⟨"lA", "<=", 0x21d0⟩,
  ⟨"rA", "=>", 0x21d2⟩, ⟨"hA", "<=>", 0x21d4⟩, ⟨"uA", "=\x08^", 0x21d1⟩, ⟨"dA", "=\x08v", 0x21d3⟩,
  ⟨"vA", "^=v", 0x21d5⟩, ⟨"an", "-", 0x23af⟩, ⟨"AN", "^", 0x2227⟩, ⟨"OR", "v", 0x2228⟩,
  ⟨"no", "~", 0xac⟩, ⟨"tno", "~", 0xac⟩, ⟨"te", "<there\x1fexists>", 0x2203⟩,
  ⟨"fa", "<for\x1fall>", 0x2200⟩, ⟨"st", "<such\x1fthat>", 0x220b⟩, ⟨"tf", "<therefore>", 0x2234⟩,
  ⟨"3d", "<therefore>", 0x2234⟩, ⟨"or", "|", 0x7c⟩, ⟨"pl", "+", 0x2b⟩, ⟨"mi", "-", 0x2212⟩,
  ⟨"-", "-", 0x2d⟩, ⟨"-+", "-+", 0x2213⟩, ⟨"+-", "+-", 0xb1⟩, ⟨"t+-", "+-", 0xb1⟩,
  ⟨"pc", ".", 0xb7⟩, ⟨"md", ".", 0x22c5⟩, ⟨"mu", "x", 0xd7⟩, ⟨"tmu", "x", 0xd7⟩,
  ⟨"c*", "O\x08x", 0x2297⟩, ⟨"c+", "O\x08+", 0x2295⟩, ⟨"di", "/", 0xf7⟩, ⟨"tdi", "/", 0xf7⟩,
  ⟨"f/", "/", 0x2044⟩, ⟨"**", "*", 0x2217⟩, ⟨"<=", "<=", 0x2264⟩, ⟨">=", ">=", 0x2265⟩,
  ⟨"<<", "<<", 0x226a⟩, ⟨">>", ">>", 0x226b⟩, ⟨"eq", "=", 0x3d⟩, ⟨"!=", "!=", 0x2260⟩,
  ⟨"==", "==", 0x2261⟩, ⟨"ne", "!==", 0x2262⟩, ⟨"ap", "~", 0x223c⟩, ⟨"|=", "-~", 0x2243⟩,
  ⟨"=~", "=~", 0x2245⟩, ⟨"~~", "~~", 0x2248⟩, ⟨"~=", "~=", 0x2248⟩,
  ⟨"pt", "<proportional\x1fto>", 0x221d⟩, ⟨"es", "\x7b\x7d", 0x2205⟩,
  ⟨"mo", "<element\x1fof>", 0x2208⟩, ⟨"nm", "<not\x1felement\x1fof>", 0x2209⟩,
  ⟨"sb", "<proper\x1fsubset>", 0x2282⟩, ⟨"nb", "<not\x1fsubset>", 0x2284⟩,
  ⟨"sp", "<proper\x1fsuperset>", 0x2283⟩, ⟨"nc", "<not\x1fsuperset>", 0x2285⟩,
  ⟨"ib", "<subset\x1for\x1fequal>", 0x2286⟩, ⟨"ip", "<superset\x1for\x1fequal>", 0x2287⟩,
  ⟨"ca", "<intersection>", 0x2229⟩, ⟨"cu", "<union>", 0x222a⟩, ⟨"/_", "<angle>", 0x2220⟩,
  ⟨"pp", "<perpendicular>", 0x22a5⟩, ⟨"is", "<integral>", 0x222b⟩,
  ⟨"integral", "<integral>", 0x222b⟩, ⟨"sum", "<sum>", 0x2211⟩, ⟨"product", "<product>", 0x220f⟩,
  ⟨"coproduct", "<coproduct>", 0x2210⟩, ⟨"gr", "<nabla>", 0x2207⟩, ⟨"sr", "<sqrt>", 0x221a⟩,
  ⟨"sqrt", "<sqrt>", 0x221a⟩, ⟨"lc", "|~", 0x2308⟩, ⟨"rc", "~|", 0x2309⟩, ⟨"lf", "|_", 0x230a⟩,
  ⟨"rf", "_|", 0x230b⟩, ⟨"if", "<infinity>", 0x221e⟩, ⟨"Ah", "<Aleph>", 0x2135⟩,
  ⟨"Im", "<Im>", 0x2111⟩, ⟨"Re", "<Re>", 0x211c⟩, ⟨"wp", "p", 0x2118⟩, ⟨"pd", "<del>", 0x2202⟩,
  ⟨"-h", "/h", 0x210f⟩, ⟨"hbar", "/h", 0x210f⟩, ⟨"12", "1/2", 0xbd⟩, ⟨"14", "1/4", 0xbc⟩,
  ⟨"34", "3/4", 0xbe⟩, ⟨"18", "1/8", 0x215b⟩, ⟨"38", "3/8", 0x215c⟩, ⟨"58", "5/8", 0x215d⟩,
  ⟨"78", "7/8", 0x215e⟩, ⟨"S1", "^1", 0xb9⟩, ⟨"S2", "^2", 0xb2⟩, ⟨"S3", "^3", 0xb3⟩,
  ⟨"ff", "ff", 0xfb00⟩, ⟨"fi", "fi", 0xfb01⟩, ⟨"fl", "fl", 0xfb02⟩, ⟨"Fi", "ffi", 0xfb03⟩,
  ⟨"Fl", "ffl", 0xfb04⟩, ⟨"AE", "AE", 0xc6⟩, ⟨"ae", "ae", 0xe6⟩, ⟨"OE", "OE", 0x152⟩,
  ⟨"oe", "oe", 0x153⟩, ⟨"ss", "ss", 0xdf⟩, ⟨"IJ", "IJ", 0x132⟩, ⟨"ij", "ij", 0x133⟩,
  ⟨"a\"", "\"", 0x2dd⟩, ⟨"a-", "-", 0xaf⟩, ⟨"a.", ".", 0x2d9⟩, ⟨"a^", "^", 0x5e⟩,
  ⟨"aa", "'", 0xb4⟩, ⟨"'", "'", 0xb4⟩, ⟨"ga", "`", 0x60⟩, ⟨"`", "`", 0x60⟩,
  ⟨"ab", "'\x08`", 0x2d8⟩, ⟨"ac", ",", 0xb8⟩, ⟨"ad", "\"", 0xa8⟩, ⟨"ah", "v", 0x2c7⟩,
  ⟨"ao", "o", 0x2da⟩, ⟨"a~", "~", 0x7e⟩, ⟨"ho", ",", 0x2db⟩, ⟨"ha", "^", 0x5e⟩, ⟨"ti", "~", 0x7e⟩,
  ⟨"u02DC", "~", 0x2dc⟩, ⟨"'A", "'\x08A", 0xc1⟩, ⟨"'E", "'\x08E", 0xc9⟩, ⟨"'I", "'\x08I", 0xcd⟩,
  ⟨"'O", "'\x08O", 0xd3⟩, ⟨"'U", "'\x08U", 0xda⟩, ⟨"'Y", "'\x08Y", 0xdd⟩, ⟨"'a", "'\x08a", 0xe1⟩,
  ⟨"'e", "'\x08e", 0xe9⟩, ⟨"'i", "'\x08i", 0xed⟩, ⟨"'o", "'\x08o", 0xf3⟩, ⟨"'u", "'\x08u", 0xfa⟩,
  ⟨"'y", "'\x08y", 0xfd⟩, ⟨"`A", "`\x08A", 0xc0⟩, ⟨"`E", "`\x08E", 0xc8⟩, ⟨"`I", "`\x08I", 0xcc⟩,
  ⟨"`O", "`\x08O", 0xd2⟩, ⟨"`U", "`\x08U", 0xd9⟩, ⟨"`a", "`\x08a", 0xe0⟩, ⟨"`e", "`\x08e", 0xe8⟩,
  ⟨"`i", "`\x08i", 0xec⟩, ⟨"`o", "`\x08o", 0xf2⟩, ⟨"`u", "`\x08u", 0xf9⟩, ⟨"~A", "~\x08A", 0xc3⟩,
  ⟨"~N", "~\x08N", 0xd1⟩, ⟨"~O", "~\x08O", 0xd5⟩, ⟨"~a", "~\x08a", 0xe3⟩, ⟨"~n", "~\x08n", 0xf1⟩,
  ⟨"~o", "~\x08o", 0xf5⟩, ⟨":A", "\"\x08A", 0xc4⟩, ⟨":E", "\"\x08E", 0xcb⟩,
  ⟨":I", "\"\x08I", 0xcf⟩, ⟨":O", "\"\x08O", 0xd6⟩, ⟨":U", "\"\x08U", 0xdc⟩,
  ⟨":a", "\"\x08a", 0xe4⟩, ⟨":e", "\"\x08e", 0xeb⟩, ⟨":i", "\"\x08i", 0xef⟩,
  ⟨":o", "\"\x08o", 0xf6⟩, ⟨":u", "\"\x08u", 0xfc⟩, ⟨":y", "\"\x08y", 0xff⟩,
  ⟨"^A", "^\x08A", 0xc2⟩, ⟨"^E", "^\x08E", 0xca⟩, ⟨"^I", "^\x08I", 0xce⟩, ⟨"^O", "^\x08O", 0xd4⟩,
  ⟨"^U", "^\x08U", 0xdb⟩, ⟨"^a", "^\x08a", 0xe2⟩, ⟨"^e", "^\x08e", 0xea⟩, ⟨"^i", "^\x08i", 0xee⟩,
  ⟨"^o", "^\x08o", 0xf4⟩, ⟨"^u", "^\x08u", 0xfb⟩, ⟨",C", ",\x08C", 0xc7⟩, ⟨",c", ",\x08c", 0xe7⟩,
  ⟨"/L", "/\x08L", 0x141⟩, ⟨"/l", "/\x08l", 0x142⟩, ⟨"/O", "/\x08O", 0xd8⟩, ⟨"/o", "/\x08o", 0xf8⟩,
  ⟨"oA", "o\x08A", 0xc5⟩, ⟨"oa", "o\x08a", 0xe5⟩, ⟨"-D", "Dh", 0xd0⟩, ⟨"Sd", "dh", 0xf0⟩,
  ⟨"TP", "Th", 0xde⟩, ⟨"Tp", "th", 0xfe⟩, ⟨".i", "i", 0x131⟩, ⟨".j", "j", 0x237⟩,
  ⟨"Do", "$", 0x24⟩, ⟨"ct", "/\x08c", 0xa2⟩, ⟨"Eu", "EUR", 0x20ac⟩, ⟨"eu", "EUR", 0x20ac⟩,
  ⟨"Ye", "=\x08Y", 0xa5⟩, ⟨"Po", "-\x08L", 0xa3⟩, ⟨"Cs", "o\x08x", 0xa4⟩, ⟨"Fn", ",\x08f", 0x192⟩,
  ⟨"de", "<degree>", 0xb0⟩, ⟨"%0", "<permille>", 0x2030⟩, ⟨"fm", "'", 0x2032⟩,
  ⟨"sd", "\"", 0x2033⟩, ⟨"mc", "<micro>", 0xb5⟩, ⟨"Of", "_\x08a", 0xaa⟩, ⟨"Om", "_\x08o", 0xba⟩,
  ⟨"*A", "A", 0x391⟩, ⟨"*B", "B", 0x392⟩, ⟨"*G", "<Gamma>", 0x393⟩, ⟨"*D", "<Delta>", 0x394⟩,
  ⟨"*E", "E", 0x395⟩, ⟨"*Z", "Z", 0x396⟩, ⟨"*Y", "H", 0x397⟩, ⟨"*H", "<Theta>", 0x398⟩,
  ⟨"*I", "I", 0x399⟩, ⟨"*K", "K", 0x39a⟩, ⟨"*L", "<Lambda>", 0x39b⟩, ⟨"*M", "M", 0x39c⟩,
  ⟨"*N", "N", 0x39d⟩, ⟨"*C", "<Xi>", 0x39e⟩, ⟨"*O", "O", 0x39f⟩, ⟨"*P", "<Pi>", 0x3a0⟩,
  ⟨"*R", "P", 0x3a1⟩, ⟨"*S", "<Sigma>", 0x3a3⟩, ⟨"*T", "T", 0x3a4⟩, ⟨"*U", "Y", 0x3a5⟩,
  ⟨"*F", "<Phi>", 0x3a6⟩, ⟨"*X", "X", 0x3a7⟩, ⟨"*Q", "<Psi>", 0x3a8⟩, ⟨"*W", "<Omega>", 0x3a9⟩,
  ⟨"*a", "<alpha>", 0x3b1⟩, ⟨"*b", "<beta>", 0x3b2⟩, ⟨"*g", "<gamma>", 0x3b3⟩,
  ⟨"*d", "<delta>", 0x3b4⟩, ⟨"*e", "<epsilon>", 0x3b5⟩, ⟨"*z", "<zeta>", 0x3b6⟩,
  ⟨"*y", "<eta>", 0x3b7⟩, ⟨"*h", "<theta>", 0x3b8⟩, ⟨"*i", "<iota>", 0x3b9⟩,
  ⟨"*k", "<kappa>", 0x3ba⟩, ⟨"*l", "<lambda>", 0x3bb⟩, ⟨"*m", "<mu>", 0x3bc⟩,
  ⟨"*n", "<nu>", 0x3bd⟩, ⟨"*c", "<xi>", 0x3be⟩, ⟨"*o", "o", 0x3bf⟩, ⟨"*p", "<pi>", 0x3c0⟩,
  ⟨"*r", "<rho>", 0x3c1⟩, ⟨"*s", "<sigma>", 0x3c3⟩, ⟨"*t", "<tau>", 0x3c4⟩,
  ⟨"*u", "<upsilon>", 0x3c5⟩, ⟨"*f", "<phi>", 0x3d5⟩, ⟨"*x", "<chi>", 0x3c7⟩,
  ⟨"*q", "<psi>", 0x3c8⟩, ⟨"*w", "<omega>", 0x3c9⟩, ⟨"+h", "<theta>", 0x3d1⟩,
  ⟨"+f", "<phi>", 0x3c6⟩, ⟨"+p", "<pi>", 0x3d6⟩, ⟨"+e", "<epsilon>", 0x3f5⟩,
  ⟨"ts", "<sigma>", 0x3c2⟩]

/-- The table in `ascii_uc2str()`. -/
def uc2strTab : List String := [
  "<NUL>", "<SOH>", "<STX>", "<ETX>", "<EOT>", "<ENQ>", "<ACK>", "<BEL>", "<BS>", "\x09", "<LF>",
  "<VT>", "<FF>", "<CR>", "<SO>", "<SI>", "<DLE>", "<DC1>", "<DC2>", "<DC3>", "<DC4>", "<NAK>",
  "<SYN>", "<ETB>", "<CAN>", "<EM>", "<SUB>", "<ESC>", "<FS>", "<GS>", "<RS>", "<US>", " ", "!",
  "\"", "#", "$", "%", "&", "'", "(", ")", "*", "+", ",", "-", ".", "/", "0", "1", "2", "3", "4",
  "5", "6", "7", "8", "9", ":", ";", "<", "=", ">", "?", "@", "A", "B", "C", "D", "E", "F", "G",
  "H", "I", "J", "K", "L", "M", "N", "O", "P", "Q", "R", "S", "T", "U", "V", "W", "X", "Y", "Z",
  "[", "\\", "]", "^", "_", "`", "a", "b", "c", "d", "e", "f", "g", "h", "i", "j", "k", "l", "m",
  "n", "o", "p", "q", "r", "s", "t", "u", "v", "w", "x", "y", "z", "\x7b", "|", "\x7d", "~",
  "<DEL>", "<80>", "<81>", "<82>", "<83>", "<84>", "<85>", "<86>", "<87>", "<88>", "<89>", "<8A>",
  "<8B>", "<8C>", "<8D>", "<8E>", "<8F>", "<90>", "<91>", "<92>", "<93>", "<94>", "<95>", "<96>",
  "<97>", "<98>", "<99>", "<9A>", "<9B>", "<9C>", "<9D>", "<9E>", "<9F>", "\x1f", "!", "/\x08c",
  "-\x08L", "o\x08x", "=\x08Y", "|", "<section>", "\"", "(C)", "_\x08a", "<<", "~", "", "(R)", "-",
  "<degree>", "+-", "^2", "^3", "'", "<micro>", "<paragraph>", ".", ",", "^1", "_\x08o", ">>",
  "1/4", "1/2", "3/4", "?", "`\x08A", "'\x08A", "^\x08A", "~\x08A", "\"\x08A", "o\x08A", "AE",
  ",\x08C", "`\x08E", "'\x08E", "^\x08E", "\"\x08E", "`\x08I", "'\x08I", "^\x08I", "\"\x08I", "Dh",
  "~\x08N", "`\x08O", "'\x08O", "^\x08O", "~\x08O", "\"\x08O", "x", "/\x08O", "`\x08U", "'\x08U",
  "^\x08U", "\"\x08U", "'\x08Y", "Th", "ss", "`\x08a", "'\x08a", "^\x08a", "~\x08a", "\"\x08a",
  "o\x08a", "ae", ",\x08c", "`\x08e", "'\x08e", "^\x08e", "\"\x08e", "`\x08i", "'\x08i", "^\x08i",
  "\"\x08i", "dh", "~\x08n", "`\x08o", "'\x08o", "^\x08o", "~\x08o", "\"\x08o", "/", "/\x08o",
  "`\x08u", "'\x08u", "^\x08u", "\"\x08u", "'\x08y", "th", "\"\x08y", "A", "a", "A", "a", "A", "a",
  "'\x08C", "'\x08c", "^\x08C", "^\x08c", "C", "c", "C", "c", "D", "d", "/\x08D", "/\x08d", "E",
  "e", "E", "e", "E", "e", "E", "e", "E", "e", "^\x08G", "^\x08g", "G", "g", "G", "g", ",\x08G",
  ",\x08g", "^\x08H", "^\x08h", "/\x08H", "/\x08h", "~\x08I", "~\x08i", "I", "i", "I", "i", "I",
  "i", "I", "i", "IJ", "ij", "^\x08J", "^\x08j", ",\x08K", ",\x08k", "q", "'\x08L", "'\x08l",
  ",\x08L", ",\x08l", "L", "l", "L", "l", "/\x08L", "/\x08l", "'\x08N", "'\x08n", ",\x08N",
  ",\x08n", "N", "n", "'n", "Ng", "ng", "O", "o", "O", "o", "O", "o", "OE", "oe", "'\x08R",
  "'\x08r", ",\x08R", ",\x08r", "R", "r", "'\x08S", "'\x08s", "^\x08S", "^\x08s", ",\x08S",
  ",\x08s", "S", "s", ",\x08T", ",\x08t", "T", "t", "/\x08T", "/\x08t", "~\x08U", "~\x08u", "U",
  "u", "U", "u", "U", "u", "U", "u", "U", "u", "^\x08W", "^\x08w", "^\x08Y", "^\x08y", "\"\x08Y",
  "'\x08Z", "'\x08z", "Z", "z", "Z", "z", "s", "b", "B", "B", "b", "6", "6", "O", "C", "c", "D",
  "D", "D", "d", "d", "3", "@", "E", "F", ",\x08f", "G", "G", "hv", "I", "/\x08I", "K", "k",
  "/\x08l", "l", "W", "N", "n", "~\x08O", "O", "o", "OI", "oi", "P", "p", "YR", "2", "2", "SH",
  "sh", "t", "T", "t", "T", "U", "u", "Y", "V", "Y", "y", "/\x08Z", "/\x08z", "ZH", "ZH", "zh",
  "zh", "/\x082", "5", "5", "ts", "w", "|", "||", "|=", "!", "DZ", "Dz", "dz", "LJ", "Lj", "lj",
  "NJ", "Nj", "nj", "A", "a", "I", "i", "O", "o", "U", "u", "U", "u", "U", "u", "U", "u", "U", "u",
  "@", "A", "a", "A", "a", "AE", "ae", "/\x08G", "/\x08g", "G", "g", "K", "k", "O", "o", "O", "o",
  "ZH", "zh", "j", "DZ", "Dz", "dz", "'\x08G", "'\x08g", "HV", "W", "`\x08N", "`\x08n", "A", "a",
  "'\x08AE", "'\x08ae", "O", "o"]

/-! ## §2 The functions -/

/-- `mchars_spec2str()` -/
def mcharsSpec2str (p : CStr) : Option CStr :=
  (lines.find? fun ln => ln.roffcode.toList = p).map fun ln => ln.ascii.toList

/-- `mchars_spec2cp()` -/
def mcharsSpec2cp (p : CStr) : Int :=
  match lines.find? fun ln => ln.roffcode.toList = p with
  | some ln => ln.unicode
  | none => -1

/-- `mchars_uc2str()` -/
def mcharsUc2str (uc : Nat) : CStr :=
  match lines.find? fun ln => ln.unicode = uc with
  | some ln => ln.ascii.toList
  | none => "<?>".toList

/-- `ascii_uc2str()`, with its assertion. -/
def asciiUc2str (uc : Int) : Res CStr :=
  if uc < 0 then .error .abort
  else
    match uc2strTab[uc.toNat]? with
    | some s => .ok s.toList
    | none => .ok (mcharsUc2str uc.toNat)

end Mandoc
