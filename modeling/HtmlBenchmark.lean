import HtmlBenchmark.Library.Machine
import HtmlBenchmark.Library.Blanks
import HtmlBenchmark.Library.Tree
import HtmlBenchmark.Library.Lists
import HtmlBenchmark.Library.Nesting
import HtmlBenchmark.Library.Bits
import HtmlBenchmark.Library.Stores
import HtmlBenchmark.Library.Rounds
import HtmlBenchmark.Library.Ledger
import HtmlBenchmark.Library.Transducer
import HtmlBenchmark.Library.Words
import HtmlBenchmark.Library.Linked
import HtmlBenchmark.Library.Walks
import HtmlBenchmark.Library.Utf8
import HtmlBenchmark.CLib
import HtmlBenchmark.Dom
import HtmlBenchmark.Util
import HtmlBenchmark.Util.Appends
import HtmlBenchmark.TestResult
import HtmlBenchmark.StreamParser.Parser
import HtmlBenchmark.StreamParser.Store
import HtmlBenchmark.StreamParser.Flags
import HtmlBenchmark.StreamParser.Tags
import HtmlBenchmark.StreamParser.Blanks
import HtmlBenchmark.StreamParser.Scripts
import HtmlBenchmark.StreamParser.Accesses
import HtmlBenchmark.StreamParser.Texts
import HtmlBenchmark.StreamParser.Reports
import HtmlBenchmark.StreamParser.Markup
import HtmlBenchmark.StreamParser.Letters
import HtmlBenchmark.StreamParser.Values
import HtmlBenchmark.StreamParser.LastRead
import HtmlBenchmark.StreamParser.RoundTrip
import HtmlBenchmark.TestHsp.Driver
import HtmlBenchmark.TestHsp.Steps
import HtmlBenchmark.TestHsp.OnePass
import HtmlBenchmark.TestHsp.Feeding
import HtmlBenchmark.TestHsp.Images
import HtmlBenchmark.TestHsp.Phases
import HtmlBenchmark.TestHsp.Counting
import HtmlBenchmark.TestHsp.Reports
import HtmlBenchmark.TestHsp.Runs
import HtmlBenchmark.TestHsp.InnerText
import HtmlBenchmark.TestHsp.Isolation
import HtmlBenchmark.TestHsp.LetterCase
import HtmlBenchmark.TestHsp.Documents
import HtmlBenchmark.TestHsp.Accesses
import HtmlBenchmark.TestHsp.Trims
import HtmlBenchmark.Libxml2.Adapter
import HtmlBenchmark.Libxml2.Chunks
import HtmlBenchmark.Haut.Adapter
import HtmlBenchmark.Haut.Attributes
import HtmlBenchmark.Gumbo.Adapter
import HtmlBenchmark.Gumbo.Innertext
import HtmlBenchmark.Gumbo.Ownership
import HtmlBenchmark.Gumbo.Vector
import HtmlBenchmark.Gumbo.Utf8
import HtmlBenchmark.Gumbo.Decoding
import HtmlBenchmark.Gumbo.Reading
import HtmlBenchmark.Gumbo.StringBuffer
import HtmlBenchmark.Gumbo.Copying
import HtmlBenchmark.Gumbo.Marks
import HtmlBenchmark.Gumbo.CharRef
import HtmlBenchmark.Gumbo.Tags
import HtmlBenchmark.Gumbo.Formatting
import HtmlBenchmark.Gumbo.Adoption
import HtmlBenchmark.Gumbo.Handlers
import HtmlBenchmark.Gumbo.Places
import HtmlBenchmark.Gumbo.Foster
import HtmlBenchmark.MyHtml.Adapter
import HtmlBenchmark.MyHtml.Innertext
import HtmlBenchmark.MyHtml.Nodes
import HtmlBenchmark.MyHtml.Collections
import HtmlBenchmark.Agreement.Links
import HtmlBenchmark.Agreement.Text
import HtmlBenchmark.Agreement.Collections
import HtmlBenchmark.Loader.TestSet
import HtmlBenchmark.Loader.Loading
import HtmlBenchmark.Loader.Passes
import HtmlBenchmark.Loader.Paths
import HtmlBenchmark.Loader.ByPath
import HtmlBenchmark.Loader.Ownership
import HtmlBenchmark.Loader.Freeing
import HtmlBenchmark.Benchmark.Perform
import HtmlBenchmark.Benchmark.Entries
import HtmlBenchmark.Benchmark.Order
import HtmlBenchmark.Benchmark.Main
import HtmlBenchmark.Benchmark.Selection
import HtmlBenchmark.Benchmark.Sums
import HtmlBenchmark.Benchmark.Averages
import HtmlBenchmark.Benchmark.Prefixes
