/-!
# Composite characters

Characters of Unicode 16 that stand for a sequence of one or two others. A pair is written as its
composite where there is one; some composites are only taken apart and never put together.
Syllables of Hangul are composed by arithmetic and are in none of the tables.
-/

namespace ModuleBridge

/-- The entry for `code` in a table. A row has the entries of code points that follow each other,
after the first of these code points. -/
def entryOf? {ρ α : Type} (entries : ρ → List α) (rows : List (Nat × ρ)) (code : Nat) : Option α :=
  rows.findSome? fun (first, row) =>
    if code < first then none else (entries row)[code - first]?

/-- Composites by the second character they stand for. A row has its code point, the first
characters and, in the same order, the composites. -/
def compositeRows : List (Nat × String × String) :=
  [(0x300, "AEIOUaeiouÜüNnЕИеиĒēŌōWwÂâĂăÊêÔôƠơƯưYyἀ", "ÀÈÌÒÙàèìòùǛǜǸǹЀЍѐѝḔḕṐṑẀẁẦầẰằỀềỒồỜờỪừỲỳἂ"),
    (0x300, "ἁἈἉἐἑἘἙἠἡἨἩἰἱἸἹὀὁὈὉὐὑὙὠὡὨὩαεηιουωΑΕΗ᾿ϊΙ", "ἃἊἋἒἓἚἛἢἣἪἫἲἳἺἻὂὃὊὋὒὓὛὢὣὪὫὰὲὴὶὸὺὼᾺῈῊ῍ῒῚ"),
    (0x300, "῾ϋΥ¨ΟΩ", "῝ῢῪ῭ῸῺ"),
    (0x301, "AEIOUYaeiouyCcLlNnRrSsZzÜüGgÅåÆæØø¨ΑΕΗΙ", "ÁÉÍÓÚÝáéíóúýĆćĹĺŃńŔŕŚśŹźǗǘǴǵǺǻǼǽǾǿ΅ΆΈΉΊ"),
    (0x301, "ΟΥΩϊαεηιϋουωϒГКгкÇçĒēÏïKkMmÕõŌōPpŨũWwÂâ", "ΌΎΏΐάέήίΰόύώϓЃЌѓќḈḉḖḗḮḯḰḱḾḿṌṍṒṓṔṕṸṹẂẃẤấ"),
    (0x301, "ĂăÊêÔôƠơƯưἀἁἈἉἐἑἘἙἠἡἨἩἰἱἸἹὀὁὈὉὐὑὙὠὡὨὩ᾿῾", "ẮắẾếỐốỚớỨứἄἅἌἍἔἕἜἝἤἥἬἭἴἵἼἽὄὅὌὍὔὕὝὤὥὬὭ῎῞"),
    (0x302, "AEIOUaeiouCcGgHhJjSsWwYyZzẠạẸẹỌọ", "ÂÊÎÔÛâêîôûĈĉĜĝĤĥĴĵŜŝŴŵŶŷẐẑẬậỆệỘộ"),
    (0x303, "ANOanoIiUuVvÂâĂăEeÊêÔôƠơƯưYy", "ÃÑÕãñõĨĩŨũṼṽẪẫẴẵẼẽỄễỖỗỠỡỮữỸỹ"),
    (0x304, "AaEeIiOoUuÜüÄäȦȧÆæǪǫÖöÕõȮȯYyИиУуGgḶḷṚṛα", "ĀāĒēĪīŌōŪūǕǖǞǟǠǡǢǣǬǭȪȫȬȭȰȱȲȳӢӣӮӯḠḡḸḹṜṝᾱ"),
    (0x304, "ΑιΙυΥ", "ᾹῑῙῡῩ"),
    (0x306, "AaEeGgIiOoUuУИиуЖжАаЕеȨȩẠạαΑιΙυΥ", "ĂăĔĕĞğĬĭŎŏŬŭЎЙйўӁӂӐӑӖӗḜḝẶặᾰᾸῐῘῠῨ"),
    (0x307, "CcEeGgIZzAaOoBbDdFfHhMmNnPpRrSsŚśŠšṢṣTt", "ĊċĖėĠġİŻżȦȧȮȯḂḃḊḋḞḟḢḣṀṁṄṅṖṗṘṙṠṡṤṥṦṧṨṩṪṫ"),
    (0x307, "WwXxYyſ", "ẆẇẊẋẎẏẛ"),
    (0x308, "AEIOUaeiouyYΙΥιυϒЕІеіАаӘәЖжЗзИиОоӨөЭэУу", "ÄËÏÖÜäëïöüÿŸΪΫϊϋϔЁЇёїӒӓӚӛӜӝӞӟӤӥӦӧӪӫӬӭӰӱ"),
    (0x308, "ЧчЫыHhÕõŪūWwXxt", "ӴӵӸӹḦḧṎṏṺṻẄẅẌẍẗ"),
    (0x309, "AaÂâĂăEeÊêIiOoÔôƠơUuƯưYy", "ẢảẨẩẲẳẺẻỂểỈỉỎỏỔổỞởỦủỬửỶỷ"), (0x30a, "AaUuwy", "ÅåŮůẘẙ"),
    (0x30b, "OoUuУу", "ŐőŰűӲӳ"),
    (0x30c, "CcDdEeLlNnRrSsTtZzAaIiOoUuÜüGgKkƷʒjHh", "ČčĎďĚěĽľŇňŘřŠšŤťŽžǍǎǏǐǑǒǓǔǙǚǦǧǨǩǮǯǰȞȟ"),
    (0x30f, "AaEeIiOoRrUuѴѵ", "ȀȁȄȅȈȉȌȍȐȑȔȕѶѷ"), (0x311, "AaEeIiOoRrUu", "ȂȃȆȇȊȋȎȏȒȓȖȗ"),
    (0x313, "αΑεΕηΗιΙοΟυωΩρ", "ἀἈἐἘἠἨἰἸὀὈὐὠὨῤ"), (0x314, "αΑεΕηΗιΙοΟυΥωΩρΡ", "ἁἉἑἙἡἩἱἹὁὉὑὙὡὩῥῬ"),
    (0x31b, "OoUu", "ƠơƯư"),
    (0x323, "BbDdHhKkLlMmNnRrSsTtVvWwZzAaEeIiOoƠơUuƯ", "ḄḅḌḍḤḥḲḳḶḷṂṃṆṇṚṛṢṣṬṭṾṿẈẉẒẓẠạẸẹỊịỌọỢợỤụỰ"),
    (0x323, "ưYy", "ựỴỵ"), (0x324, "Uu", "Ṳṳ"), (0x325, "Aa", "Ḁḁ"), (0x326, "SsTt", "ȘșȚț"),
    (0x327, "CcGgKkLlNnRrSsTtEeDdHh", "ÇçĢģĶķĻļŅņŖŗŞşŢţȨȩḐḑḨḩ"),
    (0x328, "AaEeIiUuOo", "ĄąĘęĮįŲųǪǫ"), (0x32d, "DdEeLlNnTtUu", "ḒḓḘḙḼḽṊṋṰṱṶṷ"),
    (0x32e, "Hh", "Ḫḫ"), (0x330, "EeIiUu", "ḚḛḬḭṴṵ"),
    (0x331, "BbDdKkLlNnRrTtZzh", "ḆḇḎḏḴḵḺḻṈṉṞṟṮṯẔẕẖ"),
    (0x338, "←→↔⇐⇔⇒∃∈∋∣∥∼≃≅≈=≡≍<>≤≥≲≳≶≷≺≻⊂⊃⊆⊇⊢⊨⊩⊫≼≽⊑", "↚↛↮⇍⇎⇏∄∉∌∤∦≁≄≇≉≠≢≭≮≯≰≱≴≵≸≹⊀⊁⊄⊅⊈⊉⊬⊭⊮⊯⋠⋡⋢"),
    (0x338, "⊒⊲⊳⊴⊵", "⋣⋪⋫⋬⋭"),
    (0x342, "ἀἁἈἉἠἡἨἩἰἱἸἹὐὑὙὠὡὨὩα¨η᾿ιϊ῾υϋω", "ἆἇἎἏἦἧἮἯἶἷἾἿὖὗὟὦὧὮὯᾶ῁ῆ῏ῖῗ῟ῦῧῶ"),
    (0x345, "ἀἁἂἃἄἅἆἇἈἉἊἋἌἍἎἏἠἡἢἣἤἥἦἧἨἩἪἫἬἭἮἯὠὡὢὣὤὥὦ", "ᾀᾁᾂᾃᾄᾅᾆᾇᾈᾉᾊᾋᾌᾍᾎᾏᾐᾑᾒᾓᾔᾕᾖᾗᾘᾙᾚᾛᾜᾝᾞᾟᾠᾡᾢᾣᾤᾥᾦ"),
    (0x345, "ὧὨὩὪὫὬὭὮὯὰαάᾶΑὴηήῆΗὼωώῶΩ", "ᾧᾨᾩᾪᾫᾬᾭᾮᾯᾲᾳᾴᾷᾼῂῃῄῇῌῲῳῴῷῼ"), (0x653, "\u0627", "\u0622"),
    (0x654, "\u0627\u0648\u064a\u06d5\u06c1\u06d2", "\u0623\u0624\u0626\u06c0\u06c2\u06d3"),
    (0x655, "\u0627", "\u0625"), (0x93c, "नरळ", "ऩऱऴ"), (0x9be, "\u09c7", "\u09cb"),
    (0x9d7, "\u09c7", "\u09cc"), (0xb3e, "\u0b47", "\u0b4b"), (0xb56, "\u0b47", "\u0b48"),
    (0xb57, "\u0b47", "\u0b4c"), (0xbbe, "\u0bc6\u0bc7", "\u0bca\u0bcb"),
    (0xbd7, "ஒ\u0bc6", "ஔ\u0bcc"), (0xc56, "\u0c46", "\u0c48"), (0xcc2, "\u0cc6", "\u0cca"),
    (0xcd5, "\u0cbf\u0cc6\u0cca", "\u0cc0\u0cc7\u0ccb"), (0xcd6, "\u0cc6", "\u0cc8"),
    (0xd3e, "\u0d46\u0d47", "\u0d4a\u0d4b"), (0xd57, "\u0d46", "\u0d4c"),
    (0xdca, "\u0dd9\u0ddc", "\u0dda\u0ddd"), (0xdcf, "\u0dd9", "\u0ddc"),
    (0xddf, "\u0dd9", "\u0dde"), (0x102e, "ဥ", "ဦ"),
    (0x1b35, "ᬅᬇᬉᬋᬍᬑ\u1b3a\u1b3c\u1b3e\u1b3f\u1b42", "ᬆᬈᬊᬌᬎᬒ\u1b3b\u1b3d\u1b40\u1b41\u1b43"),
    (0x3099, "かきくけこさしすせそたちつてとはひふへほうゝカキクケコサシスセソタチツテトハヒ", "がぎぐげござじずぜぞだぢづでどばびぶべぼゔゞガギグゲゴザジズゼゾダヂヅデドバビ"),
    (0x3099, "フヘホウワヰヱヲヽ", "ブベボヴヷヸヹヺヾ"), (0x309a, "はひふへほハヒフヘホ", "ぱぴぷぺぽパピプペポ"),
    (0x110ba, "𑂙𑂛𑂥", "𑂚𑂜𑂫")]

/-- The other composites, each with the two code points it stands for. -/
def rareComposites : List (Nat × Nat × Nat) :=
  [(0x105c9, 0x105d2, 0x307), (0x105e4, 0x105da, 0x307), (0x1112e, 0x11131, 0x11127),
    (0x1112f, 0x11132, 0x11127), (0x1134b, 0x11347, 0x1133e), (0x1134c, 0x11347, 0x11357),
    (0x11383, 0x11382, 0x113c9), (0x11385, 0x11384, 0x113bb), (0x1138e, 0x1138b, 0x113c2),
    (0x11391, 0x11390, 0x113c9), (0x113c5, 0x113c2, 0x113c2), (0x113c7, 0x113c2, 0x113b8),
    (0x113c8, 0x113c2, 0x113c9), (0x114bb, 0x114b9, 0x114ba), (0x114bc, 0x114b9, 0x114b0),
    (0x114be, 0x114b9, 0x114bd), (0x115ba, 0x115b8, 0x115af), (0x115bb, 0x115b9, 0x115af),
    (0x11938, 0x11935, 0x11930), (0x16121, 0x1611e, 0x1611e), (0x16122, 0x1611e, 0x16129),
    (0x16123, 0x1611e, 0x1611f), (0x16124, 0x16129, 0x1611f), (0x16125, 0x1611e, 0x16120),
    (0x16126, 0x16121, 0x1611f), (0x16127, 0x16122, 0x1611f), (0x16128, 0x16121, 0x16120),
    (0x16d68, 0x16d67, 0x16d67), (0x16d69, 0x16d63, 0x16d67), (0x16d6a, 0x16d69, 0x16d67)]

/-- Composites that are only taken apart, in such rows. -/
def brokenRows : List (Nat × String × String) :=
  [(0x301, "\u0308", "\u0344"), (0x338, "⫝", "⫝̸"), (0x5b4, "י", "יִ"), (0x5b7, "ײא", "ײַאַ"),
    (0x5b8, "א", "אָ"), (0x5b9, "ו", "וֹ"),
    (0x5bc, "אבגדהוזטיךכלמנסףפצקרשת", "אּבּגּדּהּוּזּטּיּךּכּלּמּנּסּףּפּצּקּרּשּתּ"), (0x5bf, "בכפ", "בֿכֿפֿ"),
    (0x5c1, "ששּ", "שׁשּׁ"), (0x5c2, "ששּ", "שׂשּׂ"), (0x93c, "कखगजडढफय", "क़ख़ग़ज़ड़ढ़फ़य़"),
    (0x9bc, "ডঢয", "ড়ঢ়য়"), (0xa3c, "ਲਸਖਗਜਫ", "ਲ਼ਸ਼ਖ਼ਗ਼ਜ਼ਫ਼"), (0xb3c, "ଡଢ", "ଡ଼ଢ଼"),
    (0xf72, "\u0f71", "\u0f73"), (0xf74, "\u0f71", "\u0f75"),
    (0xf80, "\u0fb2\u0fb3\u0f71", "\u0f76\u0f78\u0f81"), (0xfb5, "ཀ\u0f90", "ཀྵ\u0fb9"),
    (0xfb7, "གཌདབཛ\u0f92\u0f9c\u0fa1\u0fa6\u0fab", "གྷཌྷདྷབྷཛྷ\u0f93\u0f9d\u0fa2\u0fa7\u0fac"),
    (0x1d165, "𝅗𝅘𝆹𝆺", "𝅗𝅥𝅘𝅥𝆹𝅥𝆺𝅥"), (0x1d16e, "𝅘𝅥𝆹𝅥𝆺𝅥", "𝅘𝅥𝅮𝆹𝅥𝅮𝆺𝅥𝅮"), (0x1d16f, "𝅘𝅥𝆹𝅥𝆺𝅥", "𝅘𝅥𝅯𝆹𝅥𝅯𝆺𝅥𝅯"),
    (0x1d170, "𝅘𝅥", "𝅘𝅥𝅰"), (0x1d171, "𝅘𝅥", "𝅘𝅥𝅱"), (0x1d172, "𝅘𝅥", "𝅘𝅥𝅲")]

/-- Characters that stand for another one. -/
def duplicates : List (Nat × String) :=
  [(0x340, "\u0300\u0301"), (0x343, "\u0313"), (0x374, "ʹ"), (0x37e, ";"), (0x387, "·"),
    (0x1f71, "ά"), (0x1f73, "έ"), (0x1f75, "ή"), (0x1f77, "ί"), (0x1f79, "ό"), (0x1f7b, "ύ"),
    (0x1f7d, "ώ"), (0x1fbb, "Ά"), (0x1fbe, "ι"), (0x1fc9, "Έ"), (0x1fcb, "Ή"), (0x1fd3, "ΐ"),
    (0x1fdb, "Ί"), (0x1fe3, "ΰ"), (0x1feb, "Ύ"), (0x1fee, "΅\x60"), (0x1ff9, "Ό"), (0x1ffb, "Ώ"),
    (0x1ffd, "´"), (0x2000, "\u2002\u2003"), (0x2126, "Ω"), (0x212a, "KÅ"), (0x2329, "〈〉"),
    (0xf900, "豈更車賈滑串句龜龜契金喇奈懶癩羅蘿螺裸邏樂洛烙珞落酪駱亂卵欄爛蘭鸞嵐濫藍襤拉臘蠟廊"),
    (0xf929, "朗浪狼郎來冷勞擄櫓爐盧老蘆虜路露魯鷺碌祿綠菉錄鹿論壟弄籠聾牢磊賂雷壘屢樓淚漏累縷陋"),
    (0xf952, "勒肋凜凌稜綾菱陵讀拏樂諾丹寧怒率異北磻便復不泌數索參塞省葉說殺辰沈拾若掠略亮兩凉梁"),
    (0xf97b, "糧良諒量勵呂女廬旅濾礪閭驪麗黎力曆歷轢年憐戀撚漣煉璉秊練聯輦蓮連鍊列劣咽烈裂說廉念"),
    (0xf9a4, "捻殮簾獵令囹寧嶺怜玲瑩羚聆鈴零靈領例禮醴隸惡了僚寮尿料樂燎療蓼遼龍暈阮劉杻柳流溜琉"),
    (0xf9cd, "留硫紐類六戮陸倫崙淪輪律慄栗率隆利吏履易李梨泥理痢罹裏裡里離匿溺吝燐璘藺隣鱗麟林淋"),
    (0xf9f6, "臨立笠粒狀炙識什茶刺切度拓糖宅洞暴輻行降見廓兀嗀"), (0xfa10, "塚"), (0xfa12, "晴"),
    (0xfa15, "凞猪益礼神祥福靖精羽"), (0xfa20, "蘒"), (0xfa22, "諸"), (0xfa25, "逸都"),
    (0xfa2a, "飯飼館鶴郞隷侮僧免勉勤卑喝嘆器塀墨層屮悔慨憎懲敏既暑梅海渚漢煮爫琢碑社祉祈祐祖祝禍"),
    (0xfa53, "禎穀突節練縉繁署者臭艹艹著褐視謁謹賓贈辶逸難響頻恵𤋮舘"),
    (0xfa70, "並况全侀充冀勇勺喝啕喙嗢塚墳奄奔婢嬨廒廙彩徭惘慎愈憎慠懲戴揄搜摒敖晴朗望杖歹殺流滛"),
    (0xfa99, "滋漢瀞煮瞧爵犯猪瑱甆画瘝瘟益盛直睊着磌窱節类絛練缾者荒華蝹襁覆視調諸請謁諾諭謹變贈"),
    (0xfac2, "輸遲醙鉶陼難靖韛響頋頻鬒龜𢡊𢡄𣏕㮝䀘䀹𥉉𥳐𧻓齃龎"),
    (0x2f800, "丽丸乁𠄢你侮侻倂偺備僧像㒞𠘺免兔兤具𠔜㒹內再𠕋冗冤仌冬况𩇟凵刃㓟刻剆割剷㔕勇勉勤"),
    (0x2f828, "勺包匆北卉卑博即卽卿卿卿𠨬灰及叟𠭣叫叱吆咞吸呈周咢哶唐啓啣善善喙喫喳嗂圖嘆圗噑噴"),
    (0x2f850, "切壮城埴堍型堲報墬𡓤売壷夆多夢奢𡚨𡛪姬娛娧姘婦㛮㛼嬈嬾嬾𡧈寃寘寧寳𡬘寿将当尢㞁屠"),
    (0x2f878, "屮峀岍𡷤嵃𡷦嵮嵫嵼巡巢㠯巽帨帽幩㡢𢆃㡼庰庳庶廊𪎒廾𢌱𢌱舁弢弢㣇𣊸𦇚形彫㣣徚忍志忹"),
    (0x2f8a0, "悁㤺㤜悔𢛔惇慈慌慎慌慺憎憲憤憯懞懲懶成戛扝抱拔捐𢬌挽拼捨掃揤𢯱搢揅掩㨮摩摾撝摷㩬"),
    (0x2f8c8, "敏敬𣀊旣書晉㬙暑㬈㫤冒冕最暜肭䏙朗望朡杞杓𣏃㭉柺枅桒梅𣑭梎栟椔㮝楂榣槪檨𣚣櫛㰘次"),
    (0x2f8f0, "𣢧歔㱎歲殟殺殻𣪍𡴋𣫺汎𣲼沿泍汧洖派海流浩浸涅𣴞洴港湮㴳滋滇𣻑淹潮𣽞𣾎濆瀹瀞瀛㶖灊"),
    (0x2f918, "災灷炭𠔥煅𤉣熜𤎫爨爵牐𤘈犀犕𤜵𤠔獺王㺬玥㺸㺸瑇瑜瑱璅瓊㼛甤𤰶甾𤲒異𢆟瘐𤾡𤾸𥁄㿼䀈"),
    (0x2f940, "直𥃳𥃲𥄙𥄳眞真真睊䀹瞋䁆䂖𥐝硎碌磌䃣𥘦祖𥚚𥛅福秫䄯穀穊穏𥥼𥪧𥪧竮䈂𥮫篆築䈧𥲀糒䊠"),
    (0x2f968, "糨糣紀𥾆絣䌁緇縂繅䌴𦈨𦉇䍙𦋙罺𦌾羕翺者𦓚𦔣聠𦖨聰𣍟䏕育脃䐋脾媵𦞧𦞵𣎓𣎜舁舄辞䑫芑"),
    (0x2f990, "芋芝劳花芳芽苦𦬼若茝荣莭茣莽菧著荓菊菌菜𦰶𦵫𦳕䔫蓱蓳蔖𧏊蕤𦼬䕝䕡𦾱𧃒䕫虐虜虧虩蚩"),
    (0x2f9b8, "蚈蜎蛢蝹蜨蝫螆䗗蟡蠁䗹衠衣𧙧裗裞䘵裺㒻𧢮𧥦䚾䛇誠諭變豕𧲨貫賁贛起𧼯𠠄跋趼跰𠣞軔輸"),
    (0x2f9e0, "𨗒𨗭邔郱鄑𨜮鄛鈸鋗鋘鉼鏹鐕𨯺開䦕閷𨵷䧦雃嶲霣𩅅𩈚䩮䩶韠𩐊䪲𩒖頋頋頩𩖶飢䬳餩馧駂駾"),
    (0x2fa08, "䯎𩬰鬒鱀鳽䳎䳭鵧𪃎䳸𪄅𪈎𪊑麻䵖黹黾鼅鼏鼖鼻𪘀")]

def compositesOf (rows : List (Nat × String × String)) : List (Nat × Nat × Nat) :=
  rows.flatMap fun (second, firsts, wholes) =>
    List.zipWith (fun first whole => (whole.toNat, first.toNat, second)) firsts.toList wholes.toList

def composites : List (Nat × Nat × Nat) :=
  compositesOf compositeRows ++ rareComposites

def compositeOf? (first second : Char) : Option Char :=
  (composites.find? fun (_, a, b) => a == first.toNat && b == second.toNat).map
    fun (code, _, _) => Char.ofNat code

/-- The characters that `c` stands for, if it stands for others. -/
def partsOf? (c : Char) : Option (List Char) :=
  match (composites ++ compositesOf brokenRows).find? (·.1 == c.toNat) with
  | some (_, a, b) => some [Char.ofNat a, Char.ofNat b]
  | none => (entryOf? String.toList duplicates c.toNat).map ([·])

end ModuleBridge
