import Mandoc.Cgi.Catman
import Mandoc.Cgi.Redirect
import Mandoc.Eqn.Expansion
import Mandoc.Eqn.TreeInvariant
import Mandoc.Html.AttrSafety
import Mandoc.Html.Equation
import Mandoc.Html.Href
import Mandoc.Html.MakeId
import Mandoc.Html.TagDiscipline
import Mandoc.Lib.SizedBuffer
import Mandoc.Man.Margins
import Mandoc.Man.RsMargin
import Mandoc.Man.ScopeInvariant
import Mandoc.Mdoc.ListIndent
import Mandoc.Mdoc.ListItems
import Mandoc.Mdoc.MarkdownBalance
import Mandoc.Mdoc.MarkdownUndo
import Mandoc.Mdoc.Punct
import Mandoc.Mdoc.References
import Mandoc.Mdoc.Similar
import Mandoc.Read.Preconv
import Mandoc.Roff.BlockCapture
import Mandoc.Roff.CharDefs
import Mandoc.Roff.CharNames
import Mandoc.Roff.EscapeOrder
import Mandoc.Roff.EscapeSafety
import Mandoc.Roff.Getname
import Mandoc.Roff.MacroArgs
import Mandoc.Roff.NameEnd
import Mandoc.Roff.NodeInvariant
import Mandoc.Roff.Permalink
import Mandoc.Roff.Rename
import Mandoc.Roff.ResultCodes
import Mandoc.Roff.Tag
import Mandoc.Roff.Translation
import Mandoc.Roff.Validation
import Mandoc.Search.DbmIterate
import Mandoc.Search.ExprCompile
import Mandoc.Search.FileNames
import Mandoc.Search.MacroByPage
import Mandoc.Search.Manmerge
import Mandoc.Search.Manpath
import Mandoc.Search.NameLists
import Mandoc.Search.RenderString
import Mandoc.Tbl.CellWidth
import Mandoc.Tbl.Options
import Mandoc.Tbl.Position
import Mandoc.Tbl.Restart
import Mandoc.Tbl.Term
import Mandoc.Term.Equation
import Mandoc.Term.Overstrike
import Mandoc.Term.PageOffset
import Mandoc.Term.PdfObjects
import Mandoc.Term.Tabs
import Mandoc.Term.Width
